import ScopeScript.Native

/-!
# Reading a store after a write

A write changes one scope and a new scope changes none, so what a scope holds after a write is read
off from before it:

    (s.modifyScope i f).scope j = f (s.scope j)     if i = j is a scope of s
    (s.push scope).scope j      = scope             if j = s.scopes.size

and everything else stays.  A name of a scope is bound by one binding, `find?`: `bind` sets it for
its own name, `replace` changes its value and keeps its mark.
-/

namespace ScopeScript

/-! ## Scopes -/

namespace Scope

theorem binds_iff_find? (a : Scope) (name : String) : a.binds name ↔ (a.find? name).isSome := by
  unfold binds find?
  rw [List.find?_isSome, List.any_eq_true]

theorem find?_eq_none_iff (a : Scope) (name : String) :
    a.find? name = none ↔ a.binds name = false := by
  rw [← Option.not_isSome_iff_eq_none, ← binds_iff_find?, Bool.not_eq_true]

theorem mem_bindings_of_find? {a : Scope} {name : String} {b : Binding}
    (h : a.find? name = some b) : b ∈ a.bindings :=
  List.mem_of_find?_eq_some h

theorem find?_bind_self (a : Scope) (b : Binding) : (a.bind b).find? b.name = some b := by
  simp [find?, bind]

theorem find?_bind_of_ne (a : Scope) (b : Binding) {name : String} (h : b.name ≠ name) :
    (a.bind b).find? name = a.find? name := by
  simp [find?, bind, h]

/-- Bindings that are changed and keep their names. -/
theorem find?_map_bindings (a : Scope) {f : Binding → Binding} (hf : ∀ b, (f b).name = b.name)
    (name : String) :
    find? { a with bindings := a.bindings.map f } name = (a.find? name).map f := by
  have hp : (fun b : Binding => b.name == name) ∘ f = fun b => b.name == name := by
    funext b
    simp only [Function.comp, hf]
  simp only [find?, List.find?_map, hp]

theorem find?_replace (a : Scope) (name other : String) (value : Value) :
    (a.replace name value).find? other =
      (a.find? other).map fun b => if b.name = name then { b with value } else b :=
  find?_map_bindings a (fun b => by split <;> rfl) other

/-- The mark stays. -/
theorem find?_replace_self (a : Scope) (name : String) (value : Value) :
    (a.replace name value).find? name = (a.find? name).map fun b => { b with value } := by
  rw [find?_replace]
  cases hb : a.find? name with
  | none => rfl
  | some b =>
    have hn : b.name = name := by
      have := List.find?_some hb
      simpa using this
    simp [hn]

theorem find?_replace_of_ne (a : Scope) {name other : String} (value : Value)
    (h : other ≠ name) : (a.replace name value).find? other = a.find? other := by
  rw [find?_replace]
  cases hb : a.find? other with
  | none => rfl
  | some b =>
    have hn : b.name = other := by
      have := List.find?_some hb
      simpa using this
    have hne : b.name ≠ name := fun e => h (hn.symm.trans e)
    simp [hne]

end Scope

/-! ## Stores -/

namespace Store

theorem size_modifyScope (s : Store) (i : ScopeId) (f : Scope → Scope) :
    (s.modifyScope i f).scopes.size = s.scopes.size := by
  simp [modifyScope]

theorem size_push (s : Store) (scope : Scope) :
    (s.push scope).scopes.size = s.scopes.size + 1 := by
  simp [push]

theorem scope_of_size_le (s : Store) {i : ScopeId} (h : s.scopes.size ≤ i) : s.scope i = {} := by
  simp [scope, Nat.not_lt.2 h]

theorem scope_modifyScope (s : Store) (i j : ScopeId) (f : Scope → Scope) :
    (s.modifyScope i f).scope j =
      if i = j ∧ j < s.scopes.size then f (s.scope j) else s.scope j := by
  unfold scope modifyScope
  rw [Array.getD_eq_getD_getElem?, Array.getD_eq_getD_getElem?, Array.getElem?_modify]
  by_cases hij : i = j
  · by_cases hj : j < s.scopes.size
    · simp [hij, hj]
    · simp [hij, hj]
  · simp [hij]

theorem scope_modifyScope_of_ne (s : Store) {i j : ScopeId} (f : Scope → Scope) (h : i ≠ j) :
    (s.modifyScope i f).scope j = s.scope j := by
  rw [scope_modifyScope, if_neg fun hc => h hc.1]

theorem scope_modifyScope_self (s : Store) {i : ScopeId} (f : Scope → Scope)
    (h : i < s.scopes.size) : (s.modifyScope i f).scope i = f (s.scope i) := by
  rw [scope_modifyScope, if_pos ⟨rfl, h⟩]

theorem scope_push_of_lt (s : Store) {scope : Scope} {j : ScopeId} (h : j < s.scopes.size) :
    (s.push scope).scope j = s.scope j := by
  simp [Store.scope, push, Array.getElem?_push, Nat.ne_of_lt h]

theorem scope_push_self (s : Store) (scope : Scope) :
    (s.push scope).scope s.scopes.size = scope := by
  simp [Store.scope, push]

/-! ## Global scopes -/

theorem size_pushGlobal (s : Store) : s.pushGlobal.scopes.size = s.scopes.size + 1 :=
  size_push s _

theorem scope_pushGlobal (s : Store) : s.pushGlobal.scope s.scopes.size =
    { bindings := nativeBindings s.issued NativeOp.standard ++ constantBindings } :=
  scope_push_self s _

/-- A global scope begins with native functions, truth values and null. -/
theorem forall_globalBindings {P : Value → Prop} (hnull : P .null) (hboolean : ∀ b, P (.boolean b))
    (hnative : ∀ n : Native, (∀ key, n.op ≠ .hosted key) → P (.native n)) (first : Identity) :
    ∀ b ∈ nativeBindings first NativeOp.standard ++ constantBindings, P b.value := by
  simp only [nativeBindings, NativeOp.standard, constantBindings]
  exact List.forall_mem_cons.2 ⟨hnative _ nofun, List.forall_mem_cons.2 ⟨hnative _ nofun,
    List.forall_mem_cons.2 ⟨hnull, List.forall_mem_cons.2 ⟨hboolean false,
      List.forall_mem_singleton.2 (hboolean true)⟩⟩⟩⟩

/-! ## Operations on names -/

/-- A declaration makes one binding, and fails if there is one. -/
theorem declare_eq_ok_iff {s t : Store} {i : ScopeId} {name : String} {value : Value}
    {constant : Bool} :
    s.declare i name value constant = .ok t ↔
      (s.scope i).binds name = false ∧ t = s.modifyScope i (·.bind ⟨name, value, constant⟩) := by
  unfold declare hasOwn
  cases h : (s.scope i).binds name with
  | true => simp
  | false =>
    simp only [Bool.false_eq_true, if_false, Except.ok.injEq, true_and]
    exact eq_comm

theorem declare_eq_error {s : Store} {i : ScopeId} {name : String} {value : Value}
    {constant : Bool} {e : ScopeError} (h : s.declare i name value constant = .error e) :
    e = .duplicateDeclaration := by
  unfold declare at h
  split at h
  · cases h
    rfl
  · cases h

/-- An assignment changes the binding of the owner, which is no constant. -/
theorem assign_eq_ok {s t : Store} {i : ScopeId} {name : String} {value : Value}
    (h : s.assign i name value = .ok t) :
    ∃ j, s.owner? i name = some j ∧ (∀ b, (s.scope j).find? name = some b → b.constant = false) ∧
      t = s.modifyScope j (·.replace name value) := by
  unfold assign at h
  cases ho : s.owner? i name with
  | none =>
    rw [ho] at h
    cases h
  | some j =>
    rw [ho] at h
    dsimp only at h
    split at h
    · cases h
    · next hc =>
      cases h
      refine ⟨j, rfl, fun b hb => ?_, rfl⟩
      rw [hb] at hc
      simpa using hc

end Store

end ScopeScript
