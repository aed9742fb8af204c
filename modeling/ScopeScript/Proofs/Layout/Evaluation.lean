import ScopeScript.Proofs.Eval.Coupled
import ScopeScript.Proofs.Layout.Unlined
import ScopeScript.Proofs.Run

/-!
# Evaluation does not look at lines

`Forgets V c d` says that `d` is the computation `c` without lines: on a machine without lines it
ends as `c` does on the machine itself, with a result that `V` relates, or stopped by the same error
without its line, and leaves the same machine without lines.

    Forgets (fun v v' => v' = v.unlined) (expr calls opts scope e) (expr calls opts scope e.unlined)

A line goes into faults and into the functions that a program declares, and comes out of neither
but in a fault.  Functions are called in the same way on both sides, so this holds for calls of any
depth by induction on the depth.
-/

namespace ScopeScript

def Relining.unlined : Relining := ⟨Expr.unlined, Property.unlined, Stmt.unlined, fun _ => 0⟩

theorem Relining.unlined_keeps : Relining.unlined.Keeps where
  number _ _ := rfl
  string _ _ := rfl
  name _ _ := rfl
  binary _ _ _ _ := rfl
  assign _ _ _ := rfl
  call f es line := congrArg (Expr.call f.unlined · 0) (Expr.allUnlined_eq_map es)
  dot _ _ _ := rfl
  index _ _ _ := rfl
  object ps line := congrArg (Expr.object · 0) (Property.allUnlined_eq_map ps)
  unnamed e he := by
    rintro ⟨name, line, hname⟩
    cases e with
    | name name line => exact he ⟨name, line, rfl⟩
    | _ => cases hname
  exprLine e := by cases e <;> rfl
  shorthand _ _ := rfl
  field _ _ _ := rfl
  declare _ _ _ _ := rfl
  function name params body line :=
    congrArg (Stmt.function name params · 0) (Stmt.allUnlined_eq_map body)
  exprStmt _ _ := rfl

namespace Eval

variable {α β γ δ : Type}

/-- How two computations end, the second without lines. -/
inductive EndsUnlined (V : α → γ → Prop) :
    EStateM.Result Halt Machine α → EStateM.Result Halt Machine γ → Prop
  | ok {a : α} {b : γ} {m : Machine} (h : V a b) : EndsUnlined V (.ok a m) (.ok b m.unlined)
  | error (e : Halt) (m : Machine) : EndsUnlined V (.error e m) (.error e.unlined m.unlined)

/-- `d` does without lines what `c` does. -/
def Forgets (V : α → γ → Prop) (c : Eval α) (d : Eval γ) : Prop :=
  ∀ m : Machine, EndsUnlined V (c m) (d m.unlined)

/-- The second value is the first without lines. -/
abbrev ForgetsValue : Eval Value → Eval Value → Prop := Forgets fun v v' => v' = v.unlined

namespace Forgets

variable {V : α → γ → Prop} {W : β → δ → Prop}

theorem bind {c : Eval α} {d : Eval γ} {f : α → Eval β} {g : γ → Eval δ} (h : Forgets V c d)
    (hf : ∀ a b, V a b → Forgets W (f a) (g b)) : Forgets W (c >>= f) (d >>= g) := by
  intro m
  have hc := h m
  rw [bind_apply, bind_apply]
  generalize c m = r at hc ⊢
  generalize d m.unlined = r' at hc ⊢
  cases hc with
  | ok hv => exact hf _ _ hv _
  | error e m' => exact .error e m'

theorem pure {a : α} {b : γ} (h : V a b) : Forgets V (Pure.pure a) (Pure.pure b) :=
  fun _ => .ok h

theorem fault (cause : FaultCause) (line : Nat) : Forgets V (fault cause line) (fault cause 0) :=
  fun m => .error (.fault ⟨cause, line⟩) m

end Forgets

/-! ## Steps -/

theorem lookup_forgets (scope : ScopeId) (name : String) (line : Nat) :
    ForgetsValue (lookup scope name line) (lookup scope name 0) := by
  intro m
  have hstore : m.unlined.store = m.store.unlined := rfl
  rw [lookup_apply, lookup_apply, hstore, Store.lookup_unlined]
  cases m.store.lookup scope name with
  | ok v => exact .ok rfl
  | error e => exact .error (.fault ⟨e.cause name, line⟩) m

/-- A write that can be made before or after the lines are taken out. -/
theorem tryStore_forgets {f g : Store → Except ScopeError Store}
    (h : ∀ s, g s.unlined = (f s).map Store.unlined) (name : String) (line : Nat) :
    Forgets (fun _ _ => True) (tryStore f >>= ofScope name line)
      (tryStore g >>= ofScope name 0) := by
  intro m
  have hstore : m.unlined.store = m.store.unlined := rfl
  rw [ofTryStore_apply, ofTryStore_apply, hstore, h m.store]
  cases f m.store with
  | ok s => exact .ok (m := { m with store := s }) trivial
  | error e => exact .error (.fault ⟨e.cause name, line⟩) m

theorem declare_forgets (scope : ScopeId) (name : String) (v : Value) (constant : Bool)
    (line : Nat) : Forgets (fun _ _ => True) (declare scope name v constant line)
      (declare scope name v.unlined constant 0) :=
  tryStore_forgets (fun s => s.declare_unlined scope name v constant) name line

theorem assign_forgets (scope : ScopeId) (name : String) (v : Value) (line : Nat) :
    Forgets (fun _ _ => True) (assign scope name v line) (assign scope name v.unlined 0) :=
  tryStore_forgets (fun s => s.assign_unlined scope name v) name line

theorem child_forgets (parent : ScopeId) : Forgets Eq (child parent) (child parent) := by
  intro m
  have hsize : m.unlined.store.scopes.size = m.store.scopes.size := m.store.size_unlined
  have hpush : ({ m.unlined with store := m.unlined.store.pushChild parent } : Machine) =
      Machine.unlined { m with store := m.store.pushChild parent } :=
    congrArg (fun store => ({ m with store } : Machine)) (m.store.pushChild_unlined parent)
  rw [child_apply, child_apply, hsize, hpush]
  exact .ok rfl

theorem print_forgets (text : String) : Forgets (fun _ _ => True) (print text) (print text) :=
  fun m => .ok (m := { m with output := m.output.push text }) trivial

/-! ## Expressions and statements -/

theorem forall₂_unlined_iff {vs vs' : List Value} :
    List.Forall₂ (fun v v' => v' = v.unlined) vs vs' ↔ vs' = vs.map Value.unlined := by
  constructor
  · intro h
    induction h with
    | nil => rfl
    | cons hv _ ih => rw [hv, ih, List.map_cons]
  · rintro rfl
    exact List.forall₂_map_right_iff.2 (List.forall₂_same.2 fun _ _ => rfl)

theorem forall₂_entriesUnlined {es es' : List (String × Value)}
    (h : List.Forall₂ (fun e e' => e.1 = e'.1 ∧ e'.2 = e.2.unlined) es es') :
    es' = Value.entriesUnlined es := by
  induction h with
  | nil => rfl
  | @cons e e' es es' he _ ih =>
    obtain ⟨k, v⟩ := e
    obtain ⟨k', v'⟩ := e'
    obtain ⟨rfl, rfl⟩ : k = k' ∧ v' = v.unlined := he
    rw [ih]
    rfl

/-- Calls do without lines what they do with them. -/
structure CallsForget (calls : Calls) : Prop where
  function : ∀ opts f arguments line, ForgetsValue (calls.function opts f arguments line)
    (calls.function opts f.unlined (arguments.map Value.unlined) 0)
  native : ∀ op arguments scope, Forgets (SameExcept fun v v' => v' = v.unlined)
    (calls.native op arguments scope) (calls.native op (arguments.map Value.unlined) scope)

def forgetting : Coupling Machine Machine where
  World := Unit
  Leads _ _ := True
  Fits _ v v' := v' = v.unlined
  Runs _ V c d := Forgets (V ()) c d

theorem CallsForget.couples {calls : Calls} (h : CallsForget calls) (opts : Options)
    (scope : ScopeId) :
    CouplesStmt forgetting calls calls opts scope scope {} .unlined where
  pure := .pure
  bind hx hf := hx.bind fun a b => hf () a b trivial
  fault := .fault
  mono _ hv := hv
  looksLike := by
    rintro _ v _ rfl
    exact ⟨v.type_unlined, v.number?_unlined, v.propertyKey_unlined, v.display_unlined⟩
  null := rfl
  number _ := rfl
  string _ := rfl
  get {_ o o'} key ho := by
    obtain rfl : o' = Value.recordUnlined o := Value.object.inj ho
    exact Value.getD_get?_unlined o key
  ofList {_ es es'} hes := by
    rw [forall₂_entriesUnlined hes, Value.ofList_unlined]
    rfl
  lookup _ := lookup_forgets scope _ _
  shorthand _ := lookup_forgets scope _ _
  assign := by
    rintro _ name _ _ line v _ - rfl
    exact assign_forgets scope name v line
  function {_ f f' vs vs' line} hf hvs := by
    obtain rfl : f' = f.unlined := Value.function.inj hf
    obtain rfl := forall₂_unlined_iff.1 hvs
    exact h.function opts f vs line
  native {_ n n' vs vs'} hn hvs := by
    obtain rfl : n = n' := (Value.native.inj hn).symm
    obtain rfl := forall₂_unlined_iff.1 hvs
    exact ⟨rfl, h.native n.op vs scope⟩
  declare := by
    rintro _ name v _ constant line - rfl
    exact declare_forgets scope name v constant line
  newFunction {_ name params body line} _ := by
    have hbody := Stmt.allUnlined_eq_map body
    intro m
    refine .ok (m := { m with store := { m.store with issued := m.store.issued + 1 } }) ?_
    exact congrArg (fun body => Value.function ⟨m.store.issued, name, params, body, scope⟩) hbody.symm

theorem stmts_forget {calls : Calls} (h : CallsForget calls) (opts : Options) (scope : ScopeId)
    (last : Value) (ss : List Stmt) :
    ForgetsValue (stmts calls opts scope last ss)
      (stmts calls opts scope last.unlined (Stmt.allUnlined ss)) := by
  rw [Stmt.allUnlined_eq_map]
  exact stmts_coupled (h.couples opts scope) Code.all_inherits Relining.unlined_keeps
    (fun _ _ => trivial) (w := ()) rfl

/-! ## Calls -/

theorem function_forgets {calls : Calls} (h : CallsForget calls) (opts : Options) (f : Closure)
    (arguments : List Value) (line : Nat) :
    ForgetsValue (function calls opts f arguments line)
      (function calls opts f.unlined (arguments.map Value.unlined) 0) := by
  refine (child_forgets f.scope).bind ?_
  rintro frame _ rfl
  refine Forgets.bind (bindParams_coupled (h.couples opts frame) line f.params
    (fun _ _ => trivial) (w := ()) (forall₂_unlined_iff.2 rfl)) fun _ _ _ => ?_
  exact stmts_forget h opts frame .null f.body

theorem callsWithin_forget (n : Nat) : CallsForget (callsWithin .none n) := by
  induction n with
  | zero => exact ⟨fun _ _ _ _ m => .error .depth m, fun _ _ _ m => .error .depth m⟩
  | succ n ih =>
    refine ⟨fun opts f arguments line => function_forgets ih opts f arguments line,
      fun op arguments scope => ?_⟩
    cases op with
    | print =>
      have hprint : Forgets (fun _ _ => True) (print (Value.displayAll arguments))
          (print (Value.displayAll (arguments.map Value.unlined))) := by
        rw [Value.displayAll_unlined]
        exact print_forgets _
      exact hprint.bind fun _ _ _ => .pure (.ok rfl)
    | typeOf =>
      refine .pure ?_
      rw [NativeOp.typeName_unlined]
      cases NativeOp.typeName arguments with
      | ok v => exact .ok rfl
      | error message => exact .error message
    | hosted key => exact .pure (.error _)

end Eval

end ScopeScript
