import ScopeScript.Proofs.Eval.Respects

/-!
# Runs that call no function of the embedding program

A host can do anything to the machine, so what holds of every run holds only as far as no function
of the host is called.  `Host.stopping` stops a run at the first such call, in the way that calls
nested too deeply do.  A run that ends by itself under this host made no such call, and then it is
the same under every host:

    EndsAlone run m → run host m = run Host.stopping m
-/

namespace ScopeScript

/-- A host that lets no run go on after a call of one of its functions. -/
def Host.stopping : Host := fun _ _ _ _ => throw .depth

namespace Eval

variable {α β : Type}

/-- The run ends, with a value or a fault, and calls no function of the host on its way. -/
def EndsAlone (run : Host → Eval α) (m : Machine) : Prop :=
  ∀ m', run Host.stopping m ≠ .error .depth m'

/-- `c` goes the way of `d`, unless it is stopped before. -/
def Approximates (c d : Eval α) : Prop := ∀ m, c m = d m ∨ ∃ m', c m = .error .depth m'

namespace Approximates

theorem refl (c : Eval α) : Approximates c c := fun _ => .inl rfl

theorem bind {c d : Eval α} {f g : α → Eval β} (h : Approximates c d)
    (hf : ∀ a, Approximates (f a) (g a)) : Approximates (c >>= f) (d >>= g) := by
  intro m
  rw [bind_apply, bind_apply]
  rcases h m with hc | ⟨m', hc⟩
  · rw [hc]
    cases d m with
    | ok a m' => exact hf a m'
    | error e m' => exact .inl rfl
  · rw [hc]
    exact .inr ⟨m', rfl⟩

end Approximates

/-- The calls of `c` approximate those of `d`. -/
structure CallsApproximate (c d : Calls) : Prop where
  function : ∀ opts f arguments line,
    Approximates (c.function opts f arguments line) (d.function opts f arguments line)
  native : ∀ op arguments scope,
    Approximates (c.native op arguments scope) (d.native op arguments scope)

namespace CallsApproximate

variable {c d : Calls}

theorem respects (h : CallsApproximate c d) (opts : Options) (scope : ScopeId) :
    RespectsStmt Approximates c d opts opts scope where
  pure a := .refl (pure a)
  bind hx hf := hx.bind hf
  fault cause line _ := .refl (fault cause line)
  lookup name line := .refl (lookup scope name line)
  assign name value line := .refl (assign scope name value line)
  operation op l r line := .refl (ofCause line (op.onValues opts l r))
  function f arguments line := h.function opts f arguments line
  native op arguments := h.native op arguments scope
  declare name value constant line := .refl (declare scope name value constant line)
  freshIdentity := .refl freshIdentity

theorem functionCall (h : CallsApproximate c d) (opts : Options) (f : Closure)
    (arguments : List Value) (line : Nat) :
    Approximates (Eval.function c opts f arguments line) (Eval.function d opts f arguments line) :=
  (Approximates.refl (child f.scope)).bind fun frame =>
    (Approximates.refl (bindParams frame line f.params arguments)).bind fun _ =>
      stmts_respects (h.respects opts frame) .null f.body

end CallsApproximate

/-- A host that stops every run approximates all others, at any depth that is no smaller. -/
theorem callsWithin_approximate (host : Host) {n n' : Nat} (hn : n ≤ n') :
    CallsApproximate (callsWithin Host.stopping n) (callsWithin host n') := by
  induction n generalizing n' with
  | zero =>
    exact ⟨fun _ _ _ _ m => .inr ⟨m, rfl⟩, fun _ _ _ m => .inr ⟨m, rfl⟩⟩
  | succ n ih =>
    cases n' with
    | zero => cases hn
    | succ n' =>
      have key := ih (Nat.le_of_succ_le_succ hn)
      refine ⟨fun opts f arguments line => key.functionCall opts f arguments line,
        fun op arguments scope => ?_⟩
      cases op with
      | print => exact .refl _
      | typeOf => exact .refl _
      | hosted k => exact fun m => .inr ⟨m, rfl⟩

/-- Deeper calls make no difference but where calls are nested too deeply, if the host makes no
calls. -/
theorem callsWithin_deeper {host : Host} (hhost : ∀ key c d, host key c = host key d) {n n' : Nat}
    (hn : n ≤ n') : CallsApproximate (callsWithin host n) (callsWithin host n') := by
  induction n generalizing n' with
  | zero =>
    exact ⟨fun _ _ _ _ m => .inr ⟨m, rfl⟩, fun _ _ _ m => .inr ⟨m, rfl⟩⟩
  | succ n ih =>
    cases n' with
    | zero => cases hn
    | succ n' =>
      have key := ih (Nat.le_of_succ_le_succ hn)
      refine ⟨fun opts f arguments line => key.functionCall opts f arguments line,
        fun op arguments scope => ?_⟩
      cases op with
      | print => exact .refl _
      | typeOf => exact .refl _
      | hosted k =>
        show Approximates (host k _ arguments scope) (host k _ arguments scope)
        rw [hhost k (callsWithin host n) (callsWithin host n')]
        exact .refl _

theorem EndsAlone.eq_of_approximates {run : Host → Eval α} {m : Machine} {d : Eval α}
    (h : EndsAlone run m) (ha : Approximates (run Host.stopping) d) : d m = run Host.stopping m := by
  rcases ha m with he | ⟨m', he⟩
  · exact he.symm
  · exact absurd he (h m')

theorem expr_eq_stopping {host : Host} {n : Nat} {opts : Options} {scope : ScopeId} {e : Expr}
    {m : Machine} (h : EndsAlone (fun host => expr (callsWithin host n) opts scope e) m) :
    expr (callsWithin host n) opts scope e m = expr (callsWithin Host.stopping n) opts scope e m :=
  h.eq_of_approximates (expr_respects
    ((callsWithin_approximate host (Nat.le_refl n)).respects opts scope).toRespectsExpr e)

theorem stmt_eq_stopping {host : Host} {n : Nat} {opts : Options} {scope : ScopeId} {s : Stmt}
    {m : Machine} (h : EndsAlone (fun host => stmt (callsWithin host n) opts scope s) m) :
    stmt (callsWithin host n) opts scope s m = stmt (callsWithin Host.stopping n) opts scope s m :=
  h.eq_of_approximates
    (stmt_respects ((callsWithin_approximate host (Nat.le_refl n)).respects opts scope) s)

theorem stmts_eq_stopping {host : Host} {n : Nat} {opts : Options} {scope : ScopeId}
    {last : Value} {ss : List Stmt} {m : Machine}
    (h : EndsAlone (fun host => stmts (callsWithin host n) opts scope last ss) m) :
    stmts (callsWithin host n) opts scope last ss m =
      stmts (callsWithin Host.stopping n) opts scope last ss m :=
  h.eq_of_approximates
    (stmts_respects ((callsWithin_approximate host (Nat.le_refl n)).respects opts scope) last ss)

end Eval

end ScopeScript
