import ScopeScript.Proofs.Eval.Carried
import ScopeScript.Proofs.Lines.Placed
import ScopeScript.Proofs.Run
import ScopeScript.Proofs.Store.Writes
import ScopeScript.Script

/-!
# Faults on the lines of the program

Code that is placed, run on a machine whose functions are placed, gives a placed value and leaves
such a machine.  If it is stopped by a fault then the line of the fault is one of the lines, and the
fault is not that something else than a name follows a dot (`Reports`).  A function that is called
keeps the lines that it was declared with, so this holds at any depth of calls.
-/

namespace ScopeScript

/-- What a placed program can be blamed for. -/
structure Fault.Placed (on : Nat → Prop) (f : Fault) : Prop where
  line : on f.line
  named : f.cause ≠ .unsupported .propertyName

/-- A change of one scope, with placed values before and after. -/
theorem Machine.Placed.modifyScope {on : Nat → Prop} {m : Machine} (hm : m.Placed on) (i : ScopeId)
    {f : Scope → Scope} (hf : ∀ a : Scope, (∀ b ∈ a.bindings, b.value.Placed on) →
      ∀ b ∈ (f a).bindings, b.value.Placed on) :
    Machine.Placed on { m with store := m.store.modifyScope i f } := by
  intro j
  show ∀ b ∈ ((m.store.modifyScope i f).scope j).bindings, b.value.Placed on
  rw [Store.scope_modifyScope]
  split
  · exact hf _ (hm j)
  · exact hm j

namespace Eval

variable {α β : Type} {on : Nat → Prop}

/-- On a machine with placed functions, `c` ends in a result as `V` says or in a placed fault. -/
def Reports (on : Nat → Prop) (V : α → Prop) (c : Eval α) : Prop :=
  ∀ m : Machine, m.Placed on →
    Ensures c m (fun a m' => m'.Placed on ∧ V a) fun h _ => ∀ f, h = .fault f → f.Placed on

/-! ## Rules -/

section Rules

variable {V : α → Prop} {W : β → Prop} {c : Eval α} {f : α → Eval β}

theorem Reports.bind (h : Reports on V c) (hf : ∀ a, V a → Reports on W (f a)) :
    Reports on W (c >>= f) := by
  intro m hm
  refine Ensures.bind ((h m hm).mono ?_ fun _ _ => id)
  rintro a m' ⟨hm', ha⟩
  exact hf a ha m' hm'

theorem reports_pure {a : α} (h : V a) : Reports on V (pure a) := fun _ hm => ⟨hm, h⟩

theorem reports_depth : Reports on V (throw .depth : Eval α) := by
  rintro m - f ⟨⟩

theorem reports_fault {cause : FaultCause} {line : Nat} (h : on line)
    (hc : cause ≠ .unsupported .propertyName) : Reports on V (fault cause line) := by
  rintro m - f ⟨⟩
  exact ⟨h, hc⟩

end Rules

/-! ## Steps -/

section Steps

variable {scope : ScopeId} {name : String} {line : Nat} {v : Value} {m : Machine}

theorem cause_ne_propertyName (e : ScopeError) (name : String) :
    e.cause name ≠ .unsupported .propertyName := by
  cases e <;> nofun

theorem lookup_reports (h : on line) : Reports on (Value.Placed on) (lookup scope name line) := by
  intro m hm
  unfold Ensures
  rw [lookup_apply]
  cases hv : m.store.lookup scope name with
  | ok v =>
    refine ⟨hm, ?_⟩
    unfold Store.lookup at hv
    cases hb : m.store.resolve? scope name with
    | none =>
      rw [hb] at hv
      cases hv
    | some b =>
      rw [hb] at hv
      cases hv
      obtain ⟨j, -, hj⟩ := Option.bind_eq_some_iff.1 hb
      exact hm j b (Scope.mem_bindings_of_find? hj)
  | error e =>
    rintro f ⟨⟩
    exact ⟨h, cause_ne_propertyName e name⟩

theorem declare_reports (h : on line) (hv : v.Placed on) {constant : Bool} :
    Reports on (fun _ => True) (declare scope name v constant line) := by
  intro m hm
  unfold Ensures
  rw [declare_apply]
  cases hd : m.store.declare scope name v constant with
  | ok s =>
    obtain ⟨-, rfl⟩ := Store.declare_eq_ok_iff.1 hd
    exact ⟨hm.modifyScope scope fun a ha => List.forall_mem_cons.2 ⟨hv, ha⟩, trivial⟩
  | error e =>
    rintro f ⟨⟩
    exact ⟨h, cause_ne_propertyName e name⟩

theorem assign_reports (h : on line) (hv : v.Placed on) :
    Reports on (fun _ => True) (assign scope name v line) := by
  intro m hm
  unfold Ensures
  rw [assign_apply]
  cases hd : m.store.assign scope name v with
  | ok s =>
    obtain ⟨j, -, -, rfl⟩ := Store.assign_eq_ok hd
    refine ⟨hm.modifyScope j fun a ha b hb => ?_, trivial⟩
    obtain ⟨old, hold, rfl⟩ := List.mem_map.1 hb
    by_cases hn : old.name = name
    · rwa [if_pos hn]
    · rw [if_neg hn]
      exact ha old hold
  | error e =>
    rintro f ⟨⟩
    exact ⟨h, cause_ne_propertyName e name⟩

theorem child_reports : Reports on (fun _ => True) (child scope) := by
  intro m hm
  refine ⟨fun j => ?_, trivial⟩
  show ∀ b ∈ ((m.store.pushChild scope).scope j).bindings, b.value.Placed on
  unfold Store.pushChild
  rcases Nat.lt_trichotomy j m.store.scopes.size with hj | rfl | hj
  · rw [Store.scope_push_of_lt _ hj]
    exact hm j
  · rw [Store.scope_push_self]
    exact nofun
  · rw [Store.scope_of_size_le _ (by rwa [Store.size_push])]
    exact nofun

end Steps

/-! ## Calls -/

/-- Calls of placed functions report. -/
structure CallsReport (on : Nat → Prop) (c : Calls) : Prop where
  function : ∀ opts (f : Closure) arguments line, (∀ s ∈ f.body, s.Placed on) →
    (∀ v ∈ arguments, Value.Placed on v) → on line →
    Reports on (Value.Placed on) (c.function opts f arguments line)
  native : ∀ op arguments scope, (∀ key, op ≠ .hosted key) → (∀ v ∈ arguments, Value.Placed on v) →
    Reports on (fun r => ∀ v, r = .ok v → Value.Placed on v) (c.native op arguments scope)

/-- Placed code. -/
def placed (on : Nat → Prop) : Code where
  expr := Expr.Placed on
  field := Grammar.PropertyPlaced on
  stmt := Stmt.Placed on
  line := on
  unnamed := False

theorem placed_inherits (on : Nat → Prop) : (placed on).InheritsStmt where
  binary he := by
    cases he with
    | binary hl hr hline => exact ⟨hl, hr, hline⟩
  assign he := by
    cases he with
    | assign _ hv hline => exact ⟨hv, hline⟩
  call he := by
    cases he with
    | call hf ha hline => exact ⟨ha, hf, hline⟩
  dot he := by
    cases he with
    | dot ho _ hline => exact ⟨ho, hline, .inl ⟨_, _, rfl⟩⟩
  index he := by
    cases he with
    | index ho hk hline => exact ⟨ho, hk, hline⟩
  object he p hp := by
    cases he with
    | object hl hv _ => exact ⟨hl p hp, hv p hp⟩
  field hp := hp.2 _ rfl
  declare hs := by
    cases hs with
    | declare hv hline => exact ⟨hline, trivial, hv⟩
  function hs := by
    cases hs with
    | function _ hline => exact ⟨hline, trivial⟩
  exprStmt hs := by
    cases hs with
    | expr he _ => exact he

def reporting (on : Nat → Prop) : Invariant Machine where
  World := Unit
  Leads _ _ := True
  Fits _ := Value.Placed on
  Runs _ V c := Reports on (V ()) c

theorem CallsReport.carries {c : Calls} (h : CallsReport on c) (opts : Options) (scope : ScopeId) :
    CarriesStmt (reporting on) c opts scope (placed on) where
  pure := reports_pure
  bind hc hf := hc.bind fun a => hf () a trivial
  fault hline _ hnamed := reports_fault hline hnamed
  mono _ hv := hv
  null := .null
  number := .number
  string := .string
  get key ho := by
    cases ho with
    | object ho => exact .get ho key
  ofList := .ofList
  lookup he := by
    cases he with
    | name hline => exact lookup_reports hline
  shorthand hp := lookup_reports hp.1
  assign he hv := by
    cases he with
    | assign _ _ hline => exact assign_reports hline hv
  function {_ _ vs line} hline hf hvs := by
    cases hf with
    | function hf => exact h.function opts _ vs line hf hvs hline
  native {_ _ vs} hn hvs := by
    cases hn with
    | native hn => exact h.native _ vs scope hn hvs
  declare hline _ hv := declare_reports hline hv
  newFunction hs m hm := by
    cases hs with
    | function hb _ => exact ⟨hm, .function hb⟩

theorem stmts_reports {c : Calls} (h : CallsReport on c) {opts : Options} {scope : ScopeId}
    {ss : List Stmt} (hss : ∀ s ∈ ss, s.Placed on) {last : Value} (hlast : last.Placed on) :
    Reports on (Value.Placed on) (stmts c opts scope last ss) :=
  stmts_carried (h.carries opts scope) (placed_inherits on) hss (w := ()) hlast

theorem callsWithin_report (host : Host) (n : Nat) : CallsReport on (callsWithin host n) := by
  induction n with
  | zero => exact ⟨fun _ _ _ _ _ _ _ => reports_depth, fun _ _ _ _ _ => reports_depth⟩
  | succ n ih =>
    refine ⟨fun opts f arguments line hf harguments hline => ?_, fun op arguments scope hop _ => ?_⟩
    · refine child_reports.bind fun frame _ => ?_
      have hparams := bindParams_carried (ih.carries opts frame) hline f.params
        (fun _ _ => trivial) (w := ()) harguments
      exact Reports.bind hparams fun _ _ => stmts_reports ih hf .null
    · cases op with
      | print =>
        refine fun m hm => ⟨hm, ?_⟩
        rintro v ⟨⟩
        exact .null
      | typeOf =>
        refine reports_pure fun v hv => ?_
        obtain ⟨s, rfl⟩ := NativeOp.typeName_eq_ok hv
        exact .string s
      | hosted key => exact absurd rfl (hop key)

end Eval

end ScopeScript
