import Mathlib.Data.List.Induction
import Mathlib.Data.List.Nodup
import ScopeScript.Proofs.Eval.InTurn
import ScopeScript.Proofs.Store.Writes

/-!
# The scopes that functions run in

A call makes a scope, binds the parameters in it one after the other, and runs the body there.  The
scope is the last of the store, so that a binding changes nothing else (`declare_last`).  If no
parameter is bound twice it ends up as a `Frame` (`bindParams_eq_ok`); otherwise the first one that
is there already is refused before the body is run (`bindParams_eq_error`).

Main result: `function_called`.
-/

namespace ScopeScript

/-! ## Frames -/

/-- `name` is the first of `names` that stands there a second time. -/
def RepeatsFirst (names : List String) (name : String) : Prop :=
  ∃ before after, names = before ++ name :: after ∧ before.Nodup ∧ name ∈ before

theorem exists_repeatsFirst {names : List String} (h : ¬ names.Nodup) :
    ∃ name, RepeatsFirst names name := by
  induction names using List.reverseRecOn with
  | nil => exact absurd List.nodup_nil h
  | append_singleton before name ih =>
    by_cases hbefore : before.Nodup
    · have hname : name ∈ before := by
        by_contra hname
        exact h (List.nodup_append_comm.1 (List.nodup_cons.2 ⟨hname, hbefore⟩))
      exact ⟨name, before, [], rfl, hbefore, hname⟩
    · obtain ⟨repeated, front, back, rfl, hfront⟩ := ih hbefore
      exact ⟨repeated, front, back ++ [name], by simp, hfront⟩

namespace Scope

/-- Parameters with their arguments, or null where there are no more of them. -/
def bindAll (scope : Scope) : List String → List Value → Scope
  | [], _ => scope
  | p :: ps, arguments =>
    (scope.bind ⟨p, arguments.headD .null, false⟩).bindAll ps arguments.tail

theorem binds_bind (scope : Scope) (b : Binding) (name : String) :
    (scope.bind b).binds name = (b.name == name || scope.binds name) := rfl

variable (params : List String) (scope : Scope) (arguments : List Value)

theorem ancestors_bindAll : (scope.bindAll params arguments).ancestors = scope.ancestors := by
  induction params generalizing scope arguments with
  | nil => rfl
  | cons p ps ih => exact ih _ _

theorem binds_bindAll (name : String) :
    (scope.bindAll params arguments).binds name ↔ name ∈ params ∨ scope.binds name := by
  induction params generalizing scope arguments with
  | nil => simp [bindAll]
  | cons p ps ih =>
    unfold bindAll
    rw [ih, binds_bind, Bool.or_eq_true, beq_iff_eq, List.mem_cons, or_left_comm, or_assoc,
      eq_comm]

theorem find?_bindAll_of_notMem {name : String} (h : name ∉ params) :
    (scope.bindAll params arguments).find? name = scope.find? name := by
  induction params generalizing scope arguments with
  | nil => rfl
  | cons p ps ih =>
    obtain ⟨hp, hps⟩ := not_or.1 (mt List.mem_cons.2 h)
    unfold bindAll
    rw [ih _ _ hps, find?_bind_of_ne _ _ (Ne.symm hp)]

theorem find?_bindAll (hparams : params.Nodup) {i : Nat} {p : String} (hp : params[i]? = some p) :
    (scope.bindAll params arguments).find? p = some ⟨p, arguments[i]?.getD .null, false⟩ := by
  induction params generalizing scope arguments i with
  | nil => cases hp
  | cons q ps ih =>
    obtain ⟨hq, hps⟩ := List.nodup_cons.1 hparams
    unfold bindAll
    cases i with
    | zero =>
      cases hp
      rw [find?_bindAll_of_notMem ps _ _ hq, find?_bind_self, List.headD_eq_head?_getD,
        List.head?_eq_getElem?]
    | succ i =>
      rw [ih _ _ hps hp, List.getElem?_tail]

end Scope

/-- A new scope inside `parent`. -/
def Store.emptyChild (s : Store) (parent : ScopeId) : Scope := { ancestors := s.chain parent }

/-- The scope of a call of `f`: inside the one that `f` was declared in, it binds the parameters to
the arguments, or to null where there are no more arguments, and nothing else. -/
structure Frame (s : Store) (f : Closure) (arguments : List Value) (scope : Scope) : Prop where
  ancestors : scope.ancestors = s.chain f.scope
  binds : ∀ name, scope.binds name ↔ name ∈ f.params
  parameter : ∀ (i : Nat) (p : String), f.params[i]? = some p →
    scope.find? p = some ⟨p, arguments[i]?.getD .null, false⟩

/-- Nothing is bound in a new scope. -/
theorem frame_bindAll (s : Store) {f : Closure} (arguments : List Value) (h : f.params.Nodup) :
    Frame s f arguments ((s.emptyChild f.scope).bindAll f.params arguments) where
  ancestors := Scope.ancestors_bindAll ..
  binds name := by
    rw [Scope.binds_bindAll]
    exact or_iff_left Bool.false_ne_true
  parameter _ _ := Scope.find?_bindAll _ _ _ h

/-! ## Binding parameters -/

theorem Store.modifyScope_push_last (s : Store) (scope : Scope) (f : Scope → Scope) :
    (s.push scope).modifyScope s.scopes.size f = s.push (f scope) := by
  have hlast : (s.scopes.push scope).modify s.scopes.size f = s.scopes.push (f scope) := by grind
  unfold modifyScope push
  rw [hlast]

/-- The machine with one more scope.  Its other scopes and what was printed are as they were. -/
def Machine.push (m : Machine) (scope : Scope) : Machine :=
  { m with store := m.store.push scope }

namespace Eval

variable {m : Machine} {scope : Scope} {line : Nat}

theorem declare_last (m : Machine) (scope : Scope) (name : String) (value : Value) (line : Nat) :
    declare m.store.scopes.size name value false line (m.push scope) =
      if scope.binds name then .error (.fault ⟨.duplicateDeclaration name, line⟩) (m.push scope)
      else .ok () (m.push (scope.bind ⟨name, value, false⟩)) := by
  have hown : (m.store.push scope).hasOwn m.store.scopes.size name = scope.binds name := by
    unfold Store.hasOwn
    rw [Store.scope_push_self]
  rw [declare_apply]
  unfold Machine.push Store.declare
  dsimp only
  rw [hown, Store.modifyScope_push_last]
  cases scope.binds name <;> rfl

theorem binds_bind_of_notMem {p q : String} {ps : List String} {b : Binding} (hb : b.name = p)
    (hp : p ∉ ps) (hnew : ∀ q ∈ ps, scope.binds q = false) (hq : q ∈ ps) :
    (scope.bind b).binds q = false := by
  rw [Scope.binds_bind, hnew q hq, Bool.or_false, beq_eq_false_iff_ne, hb]
  rintro rfl
  exact hp hq

/-- Parameters that are new to the scope and to each other. -/
theorem bindParams_eq_ok {params : List String} (hparams : params.Nodup)
    (hnew : ∀ p ∈ params, scope.binds p = false) (arguments : List Value) :
    bindParams m.store.scopes.size line params arguments (m.push scope) =
      .ok () (m.push (scope.bindAll params arguments)) := by
  induction params generalizing scope arguments with
  | nil => rfl
  | cons p ps ih =>
    obtain ⟨hp, hps⟩ := List.nodup_cons.1 hparams
    obtain ⟨hpnew, hpsnew⟩ := List.forall_mem_cons.1 hnew
    unfold bindParams
    rw [bind_apply, declare_last, hpnew]
    exact ih hps (fun _ => binds_bind_of_notMem rfl hp hpsnew) _

/-- Parameters before one that is there already. -/
theorem bindParams_eq_error {before : List String} {name : String} (after : List String)
    (hbefore : before.Nodup) (hnew : ∀ p ∈ before, scope.binds p = false)
    (hname : name ∈ before ∨ scope.binds name) (arguments : List Value) :
    bindParams m.store.scopes.size line (before ++ name :: after) arguments (m.push scope) =
      .error (.fault ⟨.duplicateDeclaration name, line⟩)
        (m.push (scope.bindAll before arguments)) := by
  induction before generalizing scope arguments with
  | nil =>
    have hbound := hname.resolve_left List.not_mem_nil
    rw [List.nil_append]
    unfold bindParams
    rw [bind_apply, declare_last, if_pos hbound]
    rfl
  | cons p ps ih =>
    obtain ⟨hp, hps⟩ := List.nodup_cons.1 hbefore
    obtain ⟨hpnew, hpsnew⟩ := List.forall_mem_cons.1 hnew
    rw [List.cons_append]
    unfold bindParams
    rw [bind_apply, declare_last, hpnew]
    refine ih hps (fun _ => binds_bind_of_notMem rfl hp hpsnew) ?_ _
    rw [Scope.binds_bind, Bool.or_eq_true, beq_iff_eq]
    rcases hname with hname | hname
    · exact (List.mem_cons.1 hname).symm.imp id fun h => .inl h.symm
    · exact .inr (.inr hname)

/-! ## Calls -/

theorem function_apply (calls : Calls) (opts : Options) (f : Closure) (arguments : List Value)
    (line : Nat) (m : Machine) :
    function calls opts f arguments line m =
      (bindParams m.store.scopes.size line f.params arguments >>= fun _ =>
        stmts calls opts m.store.scopes.size .null f.body)
        (m.push (m.store.emptyChild f.scope)) := by
  unfold function
  rw [bind_apply, child_apply]
  rfl

/-- A call with a parameter twice comes to nothing, whatever the arguments and the body are; else
the body is run in its own frame. -/
theorem function_called (f : Closure) :
    (¬ f.params.Nodup → ∃ name, RepeatsFirst f.params name ∧
      ∀ arguments line (m : Machine), ∃ scope, ∀ calls opts body,
        function calls opts { f with body } arguments line m =
          .error (.fault ⟨.duplicateDeclaration name, line⟩) (m.push scope)) ∧
    (f.params.Nodup → ∀ arguments line m, ∃ scope, Frame m.store f arguments scope ∧
      ∀ calls opts,
        let run := stmt calls opts m.store.scopes.size
        Ensures (function calls opts f arguments line) m
          (fun v m' => ∃ vs, InTurn run f.body (m.push scope) vs m' ∧ v = vs.getLastD .null)
          (StopsAt run f.body (m.push scope))) := by
  constructor
  · intro hparams
    obtain ⟨name, before, after, hsplit, hbefore, hname⟩ := exists_repeatsFirst hparams
    refine ⟨name, ⟨before, after, hsplit, hbefore, hname⟩, fun arguments line m => ?_⟩
    refine ⟨(m.store.emptyChild f.scope).bindAll before arguments, fun calls opts body => ?_⟩
    rw [function_apply, bind_apply, hsplit,
      bindParams_eq_error after hbefore (fun _ _ => rfl) (.inl hname)]
  · intro hparams arguments line m
    refine ⟨_, frame_bindAll m.store arguments hparams, fun calls opts => ?_⟩
    have hbody := stmts_inTurn calls opts m.store.scopes.size .null f.body
      (m.push ((m.store.emptyChild f.scope).bindAll f.params arguments))
    unfold Ensures at hbody ⊢
    rw [function_apply, bind_apply, bindParams_eq_ok hparams fun _ _ => rfl]
    exact hbody

/-- A function of the first scope that gives its second parameter. -/
def second : Closure := ⟨2, "second", ["a", "b"], [.expr (.name "b" 1) 1], 0⟩

/-- With an argument missing, and with a parameter twice.  The frame of the call is the scope behind
the global one, where the function is from. -/
theorem function_called_second :
    let m : Machine := { store := Store.pushGlobal {} }
    let twice : Closure := { second with params := ["a", "b", "a"] }
    let calls := callsWithin Host.none 0
    second.params.Nodup ∧ ¬ twice.params.Nodup ∧ m.store.scopes.size = second.scope + 1 ∧
      (∃ scope m', Frame m.store second [.boolean true] scope ∧
        function calls {} second [.boolean true] 1 m = .ok .null m' ∧
        ∃ vs, InTurn (stmt calls {} 1) second.body (m.push scope) vs m') ∧
      ∃ scope, function calls {} twice [.boolean true] 7 m =
        .error (.fault ⟨.duplicateDeclaration "a", 7⟩) (m.push scope) := by
  intro m twice calls
  have hsecond : second.params.Nodup := by decide
  have htwice : ¬ twice.params.Nodup := by decide
  have hsize : m.store.scopes.size = second.scope + 1 := rfl
  obtain ⟨scope, hframe, hrun⟩ := (function_called second).2 hsecond [.boolean true] 1 m
  obtain ⟨m', hvalue⟩ : ∃ m', function calls {} second [.boolean true] 1 m = .ok .null m' :=
    ⟨_, rfl⟩
  have hrun := hrun calls {}
  unfold Ensures at hrun
  rw [hvalue] at hrun
  obtain ⟨vs, hvs, -⟩ := hrun
  obtain ⟨name, ⟨before, after, hsplit, hbefore, hname⟩, hfault⟩ := (function_called twice).1 htwice
  obtain ⟨scope', hscope⟩ := hfault [.boolean true] 7 m
  have hstop := hscope calls {} twice.body
  obtain ⟨m₁, hfirst⟩ : ∃ m₁, function calls {} twice [.boolean true] 7 m =
      .error (.fault ⟨.duplicateDeclaration "a", 7⟩) m₁ := ⟨_, rfl⟩
  cases hfirst.symm.trans hstop
  exact ⟨hsecond, htwice, hsize, ⟨scope, m', hframe, hvalue, vs, hvs⟩, scope', hstop⟩

end Eval

end ScopeScript
