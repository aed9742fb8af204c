import ScopeScript.Proofs.Eval.Respects
import ScopeScript.Reflection
import ScopeScript.Script

/-!
# Lenient runs

The options decide about one thing only: what arithmetic does with operands that are no numbers.  A
strict run stops there, a lenient one goes on with null.  So a lenient run does what the strict one
does up to such a stop, and exactly what it does if there is none.

    Relaxes c d     d does what c does unless c is stopped by a mismatch, and then goes on printing

A function of the embedding program gets no options.  It fails with messages, prints behind what was
printed, and may make calls of its own under any options (`Host.Reports`).
-/

namespace ScopeScript

namespace Eval

variable {α β : Type}

/-! ## Printing -/

/-- What `c` prints comes after what was printed before. -/
def Appends (c : Eval α) : Prop :=
  ∀ m, m.output.toList <+: (machineAfter (c m)).output.toList

namespace Appends

theorem of_output_eq {c : Eval α} (h : ∀ m, (machineAfter (c m)).output = m.output) :
    Appends c := by
  intro m
  rewrite [h m]
  exact List.prefix_refl _

/-- What follows a step that ended prints after it. -/
theorem bind_apply {c : Eval α} {f : α → Eval β} (hf : ∀ a, Appends (f a)) (m : Machine) :
    (machineAfter (c m)).output.toList <+: (machineAfter ((c >>= f) m)).output.toList := by
  rw [Eval.bind_apply]
  cases c m with
  | ok a m' => exact hf a m'
  | error e m' => exact List.prefix_refl _

theorem bind {c : Eval α} {f : α → Eval β} (h : Appends c) (hf : ∀ a, Appends (f a)) :
    Appends (c >>= f) :=
  fun m => (h m).trans (bind_apply hf m)

theorem print (text : String) : Appends (Eval.print text) := by
  intro m
  show m.output.toList <+: (m.output.push text).toList
  rw [Array.toList_push]
  exact List.prefix_append _ _

end Appends

/-! ## Two runs -/

/-- `c` is never stopped by a fault. -/
def Faultless (c : Eval α) : Prop := ∀ m f m', c m ≠ .error (.fault f) m'

/-- `c` is never stopped for operands of the wrong type. -/
def NeverMismatched (c : Eval α) : Prop :=
  ∀ m f m', c m = .error (.fault f) m' → f.cause.isMismatch = false

/-- `d` does what `c` does, unless `c` is stopped for operands of the wrong type, which stops `d`
never: then `d` goes on, and prints further. -/
structure Relaxes (c d : Eval α) : Prop where
  strict_appends : Appends c
  appends : Appends d
  never : NeverMismatched d
  follows : ∀ m, c m = d m ∨ ∃ f m', c m = .error (.fault f) m' ∧ f.cause.isMismatch = true ∧
    m'.output.toList <+: (machineAfter (d m)).output.toList

namespace Relaxes

theorem of_same {c : Eval α} (h : Appends c) (hn : NeverMismatched c) : Relaxes c c :=
  ⟨h, h, hn, fun _ => .inl rfl⟩

/-- A step that prints nothing and fails for another reason, if at all. -/
theorem of_quiet {c : Eval α} (h : ∀ m, (machineAfter (c m)).output = m.output)
    (hn : NeverMismatched c) : Relaxes c c :=
  of_same (.of_output_eq h) hn

theorem bind {c d : Eval α} {f g : α → Eval β} (h : Relaxes c d)
    (hf : ∀ a, Relaxes (f a) (g a)) : Relaxes (c >>= f) (d >>= g) where
  strict_appends := h.strict_appends.bind fun a => (hf a).strict_appends
  appends := h.appends.bind fun a => (hf a).appends
  never := by
    intro m e m' he
    rw [bind_apply] at he
    cases hd : d m with
    | ok a m₁ =>
      rw [hd] at he
      exact (hf a).never m₁ e m' he
    | error e' m₁ =>
      rw [hd] at he
      cases he
      exact h.never m e _ hd
  follows := by
    intro m
    rcases h.follows m with hc | ⟨e, m', hc, he, hout⟩
    · rw [bind_apply, bind_apply, hc]
      cases d m with
      | ok a m₁ => exact (hf a).follows m₁
      | error e m₁ => exact .inl rfl
    · refine .inr ⟨e, m', ?_, he, hout.trans (Appends.bind_apply (fun a => (hf a).appends) m)⟩
      rw [bind_apply, hc]

theorem pure (a : α) : Relaxes (pure a) (pure a) := by
  refine of_quiet (fun _ => rfl) ?_
  intro m f m' h
  cases h

theorem fault {cause : FaultCause} (h : cause.isMismatch = false) (line : Nat) :
    Relaxes (fault cause line : Eval α) (fault cause line) := by
  refine of_quiet (fun _ => rfl) ?_
  intro m f m' hf
  cases hf
  exact h

/-- A step on scopes, which fails for what is wrong with a name, if at all. -/
theorem of_scopeStep {c : Eval α} (name : String) (line : Nat)
    (h : ∀ m, (∃ a m', c m = .ok a m' ∧ m'.output = m.output) ∨
      ∃ e : ScopeError, c m = .error (.fault ⟨e.cause name, line⟩) m) : Relaxes c c := by
  refine of_quiet (fun m => ?_) ?_
  · rcases h m with ⟨a, m', hc, hout⟩ | ⟨e, hc⟩
    · rw [hc]
      exact hout
    · rw [hc]
      rfl
  · intro m f m' hf
    rcases h m with ⟨a, m₁, hc, -⟩ | ⟨e, hc⟩
    · rw [hc] at hf
      cases hf
    · rw [hc] at hf
      cases hf
      exact e.isMismatch_cause name

theorem lookup (scope : ScopeId) (name : String) (line : Nat) :
    Relaxes (lookup scope name line) (lookup scope name line) := by
  refine of_scopeStep name line fun m => ?_
  rw [lookup_apply]
  cases m.store.lookup scope name with
  | ok v => exact .inl ⟨v, m, rfl, rfl⟩
  | error e => exact .inr ⟨e, rfl⟩

/-- An operation on scopes, and the fault of whoever made it. -/
theorem ofTryStore (f : Store → Except ScopeError Store) (name : String) (line : Nat) :
    Relaxes (tryStore f >>= ofScope name line) (tryStore f >>= ofScope name line) := by
  refine of_scopeStep name line fun m => ?_
  rw [ofTryStore_apply]
  cases f m.store with
  | ok store => exact .inl ⟨(), { m with store }, rfl, rfl⟩
  | error e => exact .inr ⟨e, rfl⟩

/-- The operation that the options decide about. -/
theorem operation (op : BinaryOp) (l r : Value) (line : Nat) :
    Relaxes (ofCause line (op.onValues { lenient := false } l r))
      (ofCause line (op.onValues { lenient := true } l r)) := by
  rw [BinaryOp.onValues_eq_match, BinaryOp.onValues_eq_match]
  split
  · next x y _ _ =>
    cases hop : op.onNumbers x y with
    | ok z => exact pure _
    | error cause =>
      obtain rfl := BinaryOp.onNumbers_eq_error hop
      exact fault rfl line
  · refine ⟨.of_output_eq fun _ => rfl, .of_output_eq fun _ => rfl, ?_, fun m => .inr ?_⟩
    · intro m f m' hf
      cases hf
    · exact ⟨⟨.typeMismatch op l.type r.type, line⟩, m, rfl, rfl, List.prefix_refl _⟩

end Relaxes

end Eval

/-! ## Calls -/

/-- Calls that print after what was printed; native functions fail with messages, not with
faults. -/
structure Calls.Report (calls : Calls) : Prop where
  function : ∀ opts f arguments line, Eval.Appends (calls.function opts f arguments line)
  native : ∀ op arguments scope, Eval.Appends (calls.native op arguments scope)
  faultless : ∀ op arguments scope, Eval.Faultless (calls.native op arguments scope)

/-- The functions of the embedding program print after what was printed and fail with messages of
their own, whatever calls they make. -/
def Host.Reports (host : Host) : Prop :=
  ∀ key (calls : Calls), calls.Report → ∀ arguments scope,
    Eval.Appends (host key calls arguments scope) ∧ Eval.Faultless (host key calls arguments scope)

namespace Eval

/-- Calls go the same way under both options, up to a mismatch. -/
structure CallsRelax (calls : Calls) : Prop where
  function : ∀ f arguments line, Relaxes (calls.function { lenient := false } f arguments line)
    (calls.function { lenient := true } f arguments line)
  report : calls.Report

namespace CallsRelax

variable {calls : Calls}

theorem native (h : CallsRelax calls) (op : NativeOp) (arguments : List Value) (scope : ScopeId) :
    Relaxes (calls.native op arguments scope) (calls.native op arguments scope) := by
  refine .of_same (h.report.native op arguments scope) ?_
  intro m f m' hf
  exact absurd hf (h.report.faultless op arguments scope m f m')

theorem respects (h : CallsRelax calls) (scope : ScopeId) :
    RespectsStmt Relaxes calls calls { lenient := false } { lenient := true } scope where
  pure := .pure
  bind hx hf := hx.bind hf
  fault _ line hc := .fault hc line
  lookup name line := .lookup scope name line
  assign name value line := .ofTryStore (·.assign scope name value) name line
  operation := .operation
  function := h.function
  native op arguments := h.native op arguments scope
  declare name value constant line :=
    .ofTryStore (·.declare scope name value constant) name line
  freshIdentity := .of_quiet (fun _ => rfl) fun _ _ _ hf => nomatch hf

theorem functionCall (h : CallsRelax calls) (f : Closure) (arguments : List Value) (line : Nat) :
    Relaxes (Eval.function calls { lenient := false } f arguments line)
      (Eval.function calls { lenient := true } f arguments line) := by
  have hchild : Relaxes (child f.scope) (child f.scope) :=
    .of_quiet (fun _ => rfl) fun _ _ _ hf => nomatch hf
  refine hchild.bind fun frame => ?_
  refine (bindParams_respects (h.respects frame) line f.params arguments).bind fun _ => ?_
  exact stmts_respects (h.respects frame) .null f.body

end CallsRelax

theorem callsWithin_relax {host : Host} (hhost : host.Reports) (n : Nat) :
    CallsRelax (callsWithin host n) := by
  induction n with
  | zero =>
    have hstop (α : Type) : Relaxes (throw .depth : Eval α) (throw .depth) :=
      .of_quiet (fun _ => rfl) fun _ _ _ hf => nomatch hf
    exact ⟨fun _ _ _ => hstop _, fun _ _ _ _ => (hstop _).appends,
      fun _ _ _ => (hstop _).appends, fun _ _ _ _ _ _ => nofun⟩
  | succ n ih =>
    refine ⟨fun f arguments line => ih.functionCall f arguments line, ?_, ?_, ?_⟩
    · rintro ⟨_ | _⟩ f arguments line
      · exact (ih.functionCall f arguments line).strict_appends
      · exact (ih.functionCall f arguments line).appends
    · intro op arguments scope
      cases op with
      | print => exact (Appends.print _).bind fun _ => .of_output_eq fun _ => rfl
      | typeOf => exact .of_output_eq fun _ => rfl
      | hosted key => exact (hhost key _ ih.report arguments scope).1
    · intro op arguments scope
      cases op with
      | print => exact fun _ _ _ => nofun
      | typeOf => exact fun _ _ _ => nofun
      | hosted key => exact (hhost key _ ih.report arguments scope).2

end Eval

/-! ## Hosts that report -/

theorem Host.none_reports : Host.none.Reports :=
  fun _ _ _ _ _ => ⟨.of_output_eq fun _ => rfl, fun _ _ _ => nofun⟩

namespace Reflection

open Eval

/-- A function that neither prints nor makes calls. -/
def Silent (c : Eval (Except String Value)) : Prop :=
  ∀ m, ∃ r m', c m = .ok r m' ∧ m'.output = m.output

theorem Silent.reports {c : Eval (Except String Value)} (h : Silent c) :
    Appends c ∧ Faultless c := by
  constructor
  · refine .of_output_eq fun m => ?_
    obtain ⟨r, m', hc, hout⟩ := h m
    rw [hc]
    exact hout
  · intro m f m' hf
    obtain ⟨r, m₁, hc, -⟩ := h m
    rw [hc] at hf
    cases hf

theorem silent_pure (r : Except String Value) : Silent (pure r) := fun m => ⟨r, m, rfl, rfl⟩

theorem silent_withName (arguments : List Value) {f : String → Eval (Except String Value)}
    (h : ∀ name, Silent (f name)) : Silent (withName arguments f) := by
  unfold withName
  split
  · exact h _
  · exact silent_pure _

theorem silent_update (name : String) (f : Store → Except ScopeError Store) :
    Silent (update name (tryStore f)) := by
  intro m
  rw [update, bind_apply, tryStore_apply]
  cases f m.store with
  | ok store => exact ⟨_, _, rfl, rfl⟩
  | error e => exact ⟨_, _, rfl, rfl⟩

theorem silent_peek (calls : Calls) (arguments : List Value) (scope : ScopeId) :
    Silent (peek calls arguments scope) := by
  refine silent_withName arguments fun name m => ?_
  have hlookup : HasScopes.lookup scope name m = .ok (m.store.lookup scope name) m := rfl
  rw [bind_apply, hlookup]
  cases m.store.lookup scope name with
  | ok v => exact ⟨_, _, rfl, rfl⟩
  | error e => exact ⟨_, _, rfl, rfl⟩

/-- A call that is made again under strict options, whose fault becomes a message. -/
theorem apply_function_apply (calls : Calls) (f : Closure) (rest : List Value) (scope : ScopeId)
    (m : Machine) :
    apply calls (.function f :: rest) scope m =
      match calls.function {} f rest 0 m with
      | .ok v m' => .ok (.ok v) m'
      | .error (.fault e) m' => .ok (.error e.message) m'
      | .error .depth m' => .error .depth m' := by
  rw [apply, tryCatch_apply, map_eq_pure_bind, bind_apply]
  cases calls.function {} f rest 0 m with
  | ok v m' => rfl
  | error e m' => cases e <;> rfl

theorem apply_reports {calls : Calls} (h : calls.Report) (arguments : List Value)
    (scope : ScopeId) :
    Appends (apply calls arguments scope) ∧ Faultless (apply calls arguments scope) := by
  match arguments with
  | .function f :: rest =>
    have hcall := h.function {} f rest 0
    constructor
    · intro m
      have hm := hcall m
      rw [apply_function_apply]
      cases hr : calls.function {} f rest 0 m with
      | ok v m' => rwa [hr] at hm
      | error e m' =>
        rw [hr] at hm
        cases e <;> exact hm
    · intro m e m' he
      rw [apply_function_apply] at he
      split at he <;> cases he
  | .native n :: rest => exact ⟨h.native n.op rest scope, h.faultless n.op rest scope⟩
  | [] | .null :: _ | .number _ :: _ | .boolean _ :: _ | .string _ :: _ | .object _ :: _ =>
    exact (silent_pure _).reports

/-- The functions that look at scopes report. -/
theorem host_reports : Host.Reports host := by
  intro key calls h arguments scope
  have htable : ∀ e ∈ (table : List (String × Callback)),
      Appends (e.2 calls arguments scope) ∧ Faultless (e.2 calls arguments scope) := by
    have hequal : Silent (equal calls arguments scope) := by
      unfold equal
      split <;> exact silent_pure _
    simp only [table, List.forall_mem_cons, List.not_mem_nil, false_implies, implies_true, and_true]
    refine ⟨(silent_peek calls arguments scope).reports, ?_, ?_, ?_, ?_, ?_, ?_,
      (silent_pure _).reports, (silent_pure _).reports, (silent_pure _).reports, hequal.reports,
      apply_reports h arguments scope⟩
    · exact (silent_withName arguments fun name => silent_update name _).reports
    · exact (silent_withName arguments fun name => silent_update name _).reports
    · exact (silent_withName arguments fun name m => ⟨_, _, rfl, rfl⟩).reports
    · exact Silent.reports fun m => ⟨_, _, rfl, rfl⟩
    · exact Silent.reports fun m => ⟨_, _, rfl, rfl⟩
    · exact Silent.reports fun m => ⟨_, _, rfl, rfl⟩
  unfold host
  cases hcallback : (table : List (String × Callback)).lookup key with
  | some callback =>
    obtain ⟨before, after, htab, -⟩ := List.lookup_eq_some_iff.1 hcallback
    exact htable (key, callback) (by simp [htab])
  | none => exact Host.none_reports key calls h arguments scope

end Reflection

/-! ## Programs -/

/-- A lenient run ends as the strict run does, in a value or a fault, with the same machine, unless
the strict run is stopped by a mismatch.  This never stops the lenient run, which has then printed
what the strict run printed before anything else. -/
theorem Program.lenient_follows_strict {host : Host} (hhost : host.Reports) (depth : Nat)
    (program : Program) (scope : ScopeId) (m : Machine) :
    let run (lenient : Bool) :=
      program.run (σ := Machine) { host, depth, options := { lenient } } scope m
    (∀ v m', run false = .ok v m' → run true = .ok v m') ∧
    (∀ f m', run false = .error (.fault f) m' → f.cause.isMismatch = false →
      run true = .error (.fault f) m') ∧
    (∀ f m', run true = .error (.fault f) m' → f.cause.isMismatch = false) ∧
    (∀ f m', run false = .error (.fault f) m' → f.cause.isMismatch = true →
      m'.output.toList <+: (Eval.machineAfter (run true)).output.toList) := by
  intro run
  have key : Eval.Relaxes
      (program.run { host, depth, options := { lenient := false } } scope)
      (program.run { host, depth, options := { lenient := true } } scope) :=
    Eval.stmts_respects ((Eval.callsWithin_relax hhost depth).respects scope) .null program
  have hrun : run false = run true ∨ ∃ f m', run false = .error (.fault f) m' ∧
      f.cause.isMismatch = true ∧
        m'.output.toList <+: (Eval.machineAfter (run true)).output.toList := key.follows m
  refine ⟨fun v m' hs => ?_, fun f m' hs hf => ?_, fun f m' => key.never m f m',
    fun f m' hs hf => ?_⟩
  · rcases hrun with he | ⟨f, m₁, he, -⟩
    · rw [← he, hs]
    · rw [hs] at he
      cases he
  · rcases hrun with he | ⟨f', m₁, he, hf', -⟩
    · rw [← he, hs]
    · rw [hs] at he
      cases he
      rw [hf] at hf'
      cases hf'
  · rcases hrun with he | ⟨f', m₁, he, -, hout⟩
    · have hn : f.cause.isMismatch = false := key.never m f m' (he.symm.trans hs)
      rw [hf] at hn
      cases hn
    · rw [hs] at he
      cases he
      exact hout

/-- `print("a")  print("b" - null)` -/
def subtractingProgram : Program :=
  [.expr (.call (.name "print" 1) [.string "a" 1] 1) 1,
    .expr (.call (.name "print" 2) [.binary (.string "b" 2) .sub (.name "null" 2) 2] 2) 2]

/-- The strict run is stopped after its first line, which the lenient run has printed too. -/
theorem subtractingProgram_prints :
    Host.Reports Reflection.host ∧
      ∃ f m', subtractingProgram.run (σ := Machine) { host := Reflection.host, depth := 2 } 0
          { store := Store.pushGlobal {} } = .error (.fault f) m' ∧
        f.cause.isMismatch = true ∧ m'.output.toList = ["a"] ∧
        m'.output.toList <+: (Eval.machineAfter (subtractingProgram.run (σ := Machine)
          { host := Reflection.host, depth := 2, options := { lenient := true } } 0
          { store := Store.pushGlobal {} })).output.toList := by
  obtain ⟨-, -, -, hprinted⟩ := Program.lenient_follows_strict Reflection.host_reports 2
    subtractingProgram 0 { store := Store.pushGlobal {} }
  exact ⟨Reflection.host_reports, _, _, rfl, rfl, rfl, hprinted _ _ rfl rfl⟩

end ScopeScript
