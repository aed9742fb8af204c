import ScopeScript.Native

/-!
# Runs of computations

`Ensures c m Q E` says how a computation `c` ends when it is run on the machine `m`: with a value
and a machine as `Q` says, or stopped as `E` says.  It follows the sequence of a computation:

    Ensures c m (fun a m' => Ensures (f a) m' Q E) E → Ensures (c >>= f) m Q E      (Ensures.bind)

The steps that evaluation is made of have one equation each, which gives the value and the machine
after the step.
-/

namespace ScopeScript.Eval

variable {σ α β : Type}

/-! ## Runs -/

/-- The machine that a run leaves, whether it ended with a value or was stopped. -/
def machineAfter : EStateM.Result Halt σ α → σ
  | .ok _ m => m
  | .error _ m => m

/-- A run of `c` on `m` ends in a value and a machine as `Q` says, or stops as `E` says. -/
def Ensures (c : EvalIn σ α) (m : σ) (Q : α → σ → Prop) (E : Halt → σ → Prop) : Prop :=
  match c m with
  | .ok a m' => Q a m'
  | .error e m' => E e m'

theorem bind_apply (c : EvalIn σ α) (f : α → EvalIn σ β) (m : σ) :
    (c >>= f) m =
      match c m with
      | .ok a m' => f a m'
      | .error e m' => .error e m' := by
  simp only [bind, EStateM.bind]
  cases c m <;> rfl

/-- A computation whose failure is caught. -/
theorem tryCatch_apply (c : EvalIn σ α) (f : Halt → EvalIn σ α) (m : σ) :
    tryCatch c f m =
      match c m with
      | .ok a m' => .ok a m'
      | .error e m' => f e m' := by
  show EStateM.tryCatch c f m = _
  delta EStateM.tryCatch
  cases c m <;> rfl

theorem modifyGet_apply (f : σ → α × σ) (m : σ) :
    (modifyGet f : EvalIn σ α) m = .ok (f m).1 (f m).2 := rfl

/-! ## Steps -/

theorem lookup_apply (scope : ScopeId) (name : String) (line : Nat) (m : Machine) :
    lookup scope name line m =
      match m.store.lookup scope name with
      | .ok v => .ok v m
      | .error e => .error (.fault ⟨e.cause name, line⟩) m := by
  show ofScope name line (m.store.lookup scope name) m = _
  cases m.store.lookup scope name <;> rfl

theorem tryStore_apply (f : Store → Except ScopeError Store) (m : Machine) :
    tryStore f m =
      match f m.store with
      | .ok store => .ok (.ok ()) { m with store }
      | .error e => .ok (.error e) m := by
  rw [tryStore, modifyGet_apply]
  cases f m.store <;> rfl

theorem ofTryStore_apply (f : Store → Except ScopeError Store) (name : String) (line : Nat)
    (m : Machine) :
    (tryStore f >>= ofScope name line) m =
      match f m.store with
      | .ok store => .ok () { m with store }
      | .error e => .error (.fault ⟨e.cause name, line⟩) m := by
  rw [bind_apply, tryStore_apply]
  cases f m.store <;> rfl

theorem declare_apply (scope : ScopeId) (name : String) (value : Value) (constant : Bool)
    (line : Nat) (m : Machine) :
    declare scope name value constant line m =
      match m.store.declare scope name value constant with
      | .ok store => .ok () { m with store }
      | .error e => .error (.fault ⟨e.cause name, line⟩) m :=
  ofTryStore_apply _ name line m

theorem assign_apply (scope : ScopeId) (name : String) (value : Value) (line : Nat)
    (m : Machine) :
    assign scope name value line m =
      match m.store.assign scope name value with
      | .ok store => .ok () { m with store }
      | .error e => .error (.fault ⟨e.cause name, line⟩) m :=
  ofTryStore_apply _ name line m

theorem child_apply (parent : ScopeId) (m : Machine) :
    child parent m = .ok m.store.scopes.size { m with store := m.store.pushChild parent } := rfl

/-! ## Rules -/

section Rules

variable {c : EvalIn σ α} {f : α → EvalIn σ β} {m : σ}

theorem Ensures.bind {Q : β → σ → Prop} {E : Halt → σ → Prop}
    (h : Ensures c m (fun a m' => Ensures (f a) m' Q E) E) : Ensures (c >>= f) m Q E := by
  unfold Ensures at *
  rw [bind_apply]
  cases hc : c m with
  | ok a m' =>
    rw [hc] at h
    exact h
  | error e m' =>
    rw [hc] at h
    exact h

theorem Ensures.mono {Q Q' : α → σ → Prop} {E E' : Halt → σ → Prop}
    (h : Ensures c m Q E) (hQ : ∀ a m', Q a m' → Q' a m') (hE : ∀ e m', E e m' → E' e m') :
    Ensures c m Q' E' := by
  unfold Ensures at *
  cases hc : c m with
  | ok a m' =>
    rw [hc] at h
    exact hQ a m' h
  | error e m' =>
    rw [hc] at h
    exact hE e m' h

theorem Ensures.of_error {Q : α → σ → Prop} {E : Halt → σ → Prop} {e : Halt}
    {m' : σ} (h : Ensures c m Q E) (hc : c m = .error e m') : E e m' := by
  unfold Ensures at h
  rwa [hc] at h

theorem ensures_pure {a : α} {Q : α → σ → Prop} {E : Halt → σ → Prop} (h : Q a m) :
    Ensures (pure a) m Q E := h

theorem ensures_throw {e : Halt} {Q : α → σ → Prop} {E : Halt → σ → Prop}
    (h : E e m) : Ensures (throw e) m Q E := h

theorem ensures_fault {cause : FaultCause} {line : Nat} {Q : α → σ → Prop}
    {E : Halt → σ → Prop} (h : E (.fault ⟨cause, line⟩) m) :
    Ensures (fault cause line) m Q E := h

end Rules

end ScopeScript.Eval
