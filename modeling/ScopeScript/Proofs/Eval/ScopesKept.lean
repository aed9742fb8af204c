import ScopeScript.Proofs.Eval.Hosts
import ScopeScript.Proofs.Store.Extends

/-!
# Evaluation keeps the scopes that it finds

Evaluation makes new scopes, declares names in them, and changes variables.  Every scope that
existed before keeps its place, its names, their marks and the values of its constants; only a
declaration adds a name, to the scope that it is evaluated in.

    expr         m.store.Kept (machineAfter (expr … m)).store
    stmt, env    m.store.Extends (machineAfter (stmt … m)).store env (gained names)

A call runs the body of a function in a scope made for it, so the declarations of the body concern
no scope that was there before the call (`function_keeps`).
-/

namespace ScopeScript.Eval

variable {α β : Type}

/-- Run on a machine with at least `k` scopes, `c` leaves the first `k` of them as they are. -/
def Keeps (k : Nat) (c : Eval α) : Prop :=
  ∀ m : Machine, k ≤ m.store.scopes.size → m.store.KeptBelow k (machineAfter (c m)).store

/-! ## Steps -/

namespace Keeps

variable {k : Nat}

/-- A computation that leaves the store alone. -/
theorem of_store_eq {c : Eval α} (h : ∀ m, (machineAfter (c m)).store = m.store) : Keeps k c := by
  intro m _
  rw [h m]
  exact .refl k m.store

theorem bind {c : Eval α} {f : α → Eval β} (h : Keeps k c) (hf : ∀ a, Keeps k (f a)) :
    Keeps k (c >>= f) := by
  intro m hk
  have hc := h m hk
  rw [bind_apply]
  cases hm : c m with
  | ok a m' =>
    rw [hm] at hc
    exact hc.trans (hf a m' (Nat.le_trans hk hc.size_le))
  | error e m' =>
    rw [hm] at hc
    exact hc

theorem lookup (scope : ScopeId) (name : String) (line : Nat) :
    Keeps k (lookup scope name line) := by
  apply of_store_eq
  intro m
  rw [lookup_apply]
  cases m.store.lookup scope name <;> rfl

/-- An assignment changes a variable, wherever it is bound. -/
theorem assign (scope : ScopeId) (name : String) (value : Value) (line : Nat) :
    Keeps k (assign scope name value line) := by
  intro m _
  rw [assign_apply]
  cases h : m.store.assign scope name value with
  | error e => exact .refl k m.store
  | ok t =>
    obtain ⟨j, -, hv, rfl⟩ := Store.assign_eq_ok h
    exact .modifyScope k m.store j _ fun _ => Scope.extends_replace _ name value hv

/-- A declaration in a scope that is none of the first `k`. -/
theorem declare {scope : ScopeId} (hs : k ≤ scope) (name : String) (value : Value)
    (constant : Bool) (line : Nat) : Keeps k (declare scope name value constant line) := by
  intro m _
  rw [declare_apply]
  cases h : m.store.declare scope name value constant with
  | error e => exact .refl k m.store
  | ok t =>
    obtain ⟨-, rfl⟩ := Store.declare_eq_ok_iff.1 h
    exact .modifyScope k m.store scope _ fun hlt => absurd hs (Nat.not_le.2 hlt)

theorem freshIdentity : Keeps k freshIdentity := fun m _ =>
  ⟨Nat.le_refl _, fun i _ => .refl (m.store.scope i)⟩

theorem ofCause (line : Nat) (x : Except FaultCause α) : Keeps k (ofCause line x) := by
  apply of_store_eq
  intro m
  cases x <;> rfl

end Keeps

/-! ## Calls -/

/-- However calls are made, they keep the scopes that they find. -/
structure CallsKeep (c : Calls) : Prop where
  function : ∀ k opts f arguments line, Keeps k (c.function opts f arguments line)
  native : ∀ k op arguments scope, Keeps k (c.native op arguments scope)

namespace CallsKeep

variable {c : Calls}

theorem respectsExpr (h : CallsKeep c) (k : Nat) (opts : Options) (scope : ScopeId) :
    RespectsExpr (fun x _ => Keeps k x) c c opts opts scope where
  pure _ := .of_store_eq fun _ => rfl
  bind hx hf := hx.bind hf
  fault _ _ _ := .of_store_eq fun _ => rfl
  lookup name line := .lookup scope name line
  assign name value line := .assign scope name value line
  operation op l r line := .ofCause line (op.onValues opts l r)
  function f arguments line := h.function k opts f arguments line
  native op arguments := h.native k op arguments scope

theorem respectsStmt (h : CallsKeep c) {k : Nat} (opts : Options) {scope : ScopeId}
    (hs : k ≤ scope) : RespectsStmt (fun x _ => Keeps k x) c c opts opts scope where
  toRespectsExpr := h.respectsExpr k opts scope
  declare name value constant line := .declare hs name value constant line
  freshIdentity := .freshIdentity

/-- The frame of a call is none of the scopes that were there before. -/
theorem function_keeps (h : CallsKeep c) (k : Nat) (opts : Options) (f : Closure)
    (arguments : List Value) (line : Nat) : Keeps k (Eval.function c opts f arguments line) := by
  intro m hk
  have hframe := h.respectsStmt opts hk
  have hbody : Keeps k (do
      bindParams m.store.scopes.size line f.params arguments
      stmts c opts m.store.scopes.size .null f.body) :=
    Keeps.bind (bindParams_respects hframe line f.params arguments) fun _ =>
      stmts_respects hframe .null f.body
  unfold Eval.function
  rw [bind_apply, child_apply]
  have hpush : m.store.KeptBelow k (m.store.pushChild f.scope) := .push m.store _ hk
  exact hpush.trans (hbody { m with store := m.store.pushChild f.scope }
    (Nat.le_trans hk hpush.size_le))

end CallsKeep

theorem callsWithin_stopping_keep (n : Nat) : CallsKeep (callsWithin Host.stopping n) := by
  induction n with
  | zero =>
    exact ⟨fun _ _ _ _ _ => .of_store_eq fun _ => rfl, fun _ _ _ _ => .of_store_eq fun _ => rfl⟩
  | succ n ih =>
    refine ⟨fun k opts f arguments line => ih.function_keeps k opts f arguments line,
      fun k op arguments scope => .of_store_eq fun m => ?_⟩
    cases op <;> rfl

/-! ## Statements -/

/-- The names that were added by a run that declares `names` as its last step. -/
def gainedBy (names : List (String × Bool)) : EStateM.Result Halt Machine α → List (String × Bool)
  | .ok _ _ => names
  | .error _ _ => []

variable {c : Calls} (opts : Options) (env : ScopeId)

theorem expr_kept (h : CallsKeep c) (e : Expr) (m : Machine) :
    m.store.Kept (machineAfter (expr c opts env e m)).store :=
  expr_respects (h.respectsExpr m.store.scopes.size opts env) e m (Nat.le_refl _)

/-- The value is computed before its name is declared, and nothing follows. -/
theorem declaration_extends {x : Eval α} {m : Machine} {env : ScopeId} (name : String) (constant : Bool)
    (line : Nat) (value : α → Value) (result : α → β)
    (hx : m.store.Kept (machineAfter (x m)).store) {r : EStateM.Result Halt Machine β}
    (hr : (do
      let a ← x
      declare env name (value a) constant line
      return result a) m = r) :
    m.store.Extends (machineAfter r).store env (gainedBy [(name, constant)] r) := by
  subst hr
  rw [bind_apply]
  cases hm : x m with
  | error e m' =>
    rw [hm] at hx
    exact .of_kept hx env
  | ok a m' =>
    rw [hm] at hx
    dsimp only
    rw [bind_apply, declare_apply]
    cases hd : m'.store.declare env name (value a) constant with
    | error e => exact .of_kept hx env
    | ok t => exact (Store.Extends.of_kept hx env).trans (.of_declare hd)

theorem stmt_extends (h : CallsKeep c) (s : Stmt) (m : Machine) :
    m.store.Extends (machineAfter (stmt c opts env s m)).store env
      (gainedBy s.declared (stmt c opts env s m)) := by
  cases s with
  | expr e line =>
    have key := Store.Extends.of_kept (expr_kept opts env h e m) env
    show m.store.Extends (machineAfter (expr c opts env e m)).store env
      (gainedBy [] (expr c opts env e m))
    cases hr : expr c opts env e m <;> rwa [hr] at key
  | declare name constant value line =>
    cases value with
    | none =>
      have hx : m.store.Kept (machineAfter ((pure .null : Eval Value) m)).store := .refl _ m.store
      refine declaration_extends name constant line id id hx ?_
      rfl
    | some e =>
      have hx := expr_kept opts env h e m
      refine declaration_extends name constant line id id hx ?_
      rfl
  | function name params body line =>
    have hx : m.store.Kept (machineAfter (freshIdentity m)).store :=
      Keeps.freshIdentity m (Nat.le_refl _)
    refine declaration_extends name true line
      (fun identity => .function ⟨identity, name, params, body, env⟩) (fun _ => .null) hx ?_
    rfl

/-- A run of statements goes through some of them, all of them if it succeeds, and adds the names
that these declare. -/
theorem stmts_extends (h : CallsKeep c) (last : Value) (ss : List Stmt) (m : Machine) :
    ∃ done, done <+: ss ∧ (∀ v m', stmts c opts env last ss m = .ok v m' → done = ss) ∧
      m.store.Extends (machineAfter (stmts c opts env last ss m)).store env
        (done.flatMap Stmt.declared) := by
  induction ss generalizing last m with
  | nil => exact ⟨[], List.prefix_refl _, fun _ _ _ => rfl, .of_kept (.refl _ m.store) env⟩
  | cons s ss ih =>
    have hs := stmt_extends opts env h s m
    have heq : stmts c opts env last (s :: ss) m =
        (stmt c opts env s >>= fun v => stmts c opts env v ss) m := rfl
    rw [heq, bind_apply]
    cases hm : stmt c opts env s m with
    | error e m' =>
      rw [hm] at hs
      refine ⟨[], List.nil_prefix, ?_, hs⟩
      rintro v m'' ⟨⟩
    | ok v m' =>
      rw [hm] at hs
      obtain ⟨done, hpre, hall, hext⟩ := ih v m'
      refine ⟨s :: done, (List.prefix_cons_inj s).2 hpre, fun w m'' hr => ?_, hs.trans hext⟩
      rw [hall w m'' hr]

/-! ## Top theorems (proved from the lemmas above) -/

/-- What a finished evaluation without functions of the embedding program can do to the scopes that
were there before: an expression changes nothing but variables, a statement that succeeds also
declares its name in its own scope, one that fails declares none, and a run of statements declares
the names of those that it got through. -/
theorem scopes_kept (host : Host) (n : Nat) (opts : Options) (env : ScopeId) (m : Machine) :
    (∀ e, EndsAlone (fun host => expr (callsWithin host n) opts env e) m →
      m.store.Kept (machineAfter (expr (callsWithin host n) opts env e m)).store) ∧
    (∀ s, EndsAlone (fun host => stmt (callsWithin host n) opts env s) m →
      m.store.Extends (machineAfter (stmt (callsWithin host n) opts env s m)).store env
        (gainedBy s.declared (stmt (callsWithin host n) opts env s m))) ∧
    (∀ last ss, EndsAlone (fun host => stmts (callsWithin host n) opts env last ss) m →
      ∃ done, done <+: ss ∧
        (∀ v m', stmts (callsWithin host n) opts env last ss m = .ok v m' → done = ss) ∧
        m.store.Extends (machineAfter (stmts (callsWithin host n) opts env last ss m)).store env
          (done.flatMap Stmt.declared)) := by
  have hc := callsWithin_stopping_keep n
  refine ⟨fun e h => ?_, fun s h => ?_, fun last ss h => ?_⟩
  · rw [expr_eq_stopping h]
    exact expr_kept opts env hc e m
  · rw [stmt_eq_stopping h]
    exact stmt_extends opts env hc s m
  · rw [stmts_eq_stopping h]
    exact stmts_extends opts env hc last ss m

/-- `type_of(print)` -/
def typeOfPrint : Expr := .call (.name "type_of" 1) [.name "print" 1] 1

/-- `let x  fn f(y) { let z = y  x = z }  f("b")  true = "c"`, which fails at its end. -/
def assigningProgram : List Stmt :=
  [.declare "x" false none 1,
    .function "f" ["y"]
      [.declare "z" false (some (.name "y" 1)) 1,
        .expr (.assign (.name "x" 1) (.name "z" 1) 1) 1] 1,
    .expr (.call (.name "f" 1) [.string "b" 1] 1) 1,
    .expr (.assign (.name "true" 1) (.string "c" 1) 1) 1]

/-- A machine with one scope, a global one. -/
def globalMachine : Machine := { store := Store.pushGlobal {} }

/-- In a global scope the program declares `x` and `f`, and `z` goes to the frame of the call. -/
theorem scopes_kept_global :
    (EndsAlone (fun host => expr (callsWithin host 2) {} 0 typeOfPrint) globalMachine ∧
      globalMachine.store.Kept
        (machineAfter (expr (callsWithin .none 2) {} 0 typeOfPrint globalMachine)).store) ∧
    (EndsAlone (fun host => stmt (callsWithin host 2) {} 0 (.declare "x" true typeOfPrint 1))
        globalMachine ∧
      globalMachine.store.Extends
        (machineAfter (stmt (callsWithin .none 2) {} 0 (.declare "x" true typeOfPrint 1)
          globalMachine)).store 0 [("x", true)]) ∧
    EndsAlone (fun host => stmts (callsWithin host 2) {} 0 .null assigningProgram) globalMachine ∧
      ∃ done, done <+: assigningProgram ∧
        (∀ v m', stmts (callsWithin .none 2) {} 0 .null assigningProgram globalMachine = .ok v m' →
          done = assigningProgram) ∧
        globalMachine.store.Extends
          (machineAfter (stmts (callsWithin .none 2) {} 0 .null assigningProgram
            globalMachine)).store 0 (done.flatMap Stmt.declared) := by
  have he : EndsAlone (fun host => expr (callsWithin host 2) {} 0 typeOfPrint) globalMachine := by
    rintro m' ⟨⟩
  have hs : EndsAlone (fun host => stmt (callsWithin host 2) {} 0 (.declare "x" true typeOfPrint 1))
      globalMachine := by
    rintro m' ⟨⟩
  have hp : EndsAlone (fun host => stmts (callsWithin host 2) {} 0 .null assigningProgram)
      globalMachine := by
    rintro m' ⟨⟩
  have hg : gainedBy (Stmt.declare "x" true typeOfPrint 1).declared
      (stmt (callsWithin .none 2) {} 0 (.declare "x" true typeOfPrint 1) globalMachine) =
        [("x", true)] := rfl
  obtain ⟨hexpr, hstmt, hstmts⟩ := scopes_kept .none 2 {} 0 globalMachine
  have hx := hstmt _ hs
  rw [hg] at hx
  exact ⟨⟨he, hexpr _ he⟩, ⟨hs, hx⟩, hp, hstmts .null _ hp⟩

end Eval

end ScopeScript
