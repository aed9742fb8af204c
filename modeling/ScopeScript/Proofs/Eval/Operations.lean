import ScopeScript.Native

/-!
# What operations on values give

Arithmetic gives a number, or null in a lenient run, and fails for two reasons only: a division by
zero and, in a strict run, an operand that is no number.  A key fails if it is neither a string nor
a number.  The name of a type is a string.
-/

namespace ScopeScript

/-- Operands of the wrong type are the only cause that the options decide about. -/
def FaultCause.isMismatch : FaultCause → Bool
  | typeMismatch _ _ _ => true
  | _ => false

theorem ScopeError.isMismatch_cause (e : ScopeError) (name : String) :
    (e.cause name).isMismatch = false := by
  cases e <;> rfl

/-- Arithmetic asks for the numbers of its operands, and for their types if there are none. -/
theorem BinaryOp.onValues_eq_match (opts : Options) (op : BinaryOp) (l r : Value) :
    op.onValues opts l r =
      match l.number?, r.number? with
      | some x, some y => .number <$> op.onNumbers x y
      | _, _ => if opts.lenient then .ok .null else .error (.typeMismatch op l.type r.type) := by
  cases l <;> cases r <;> rfl

theorem BinaryOp.onNumbers_eq_error {op : BinaryOp} {x y : Float} {cause : FaultCause}
    (h : op.onNumbers x y = .error cause) : cause = .divisionByZero := by
  cases op with
  | div =>
    unfold onNumbers at h
    dsimp only at h
    split at h
    · cases h
      rfl
    · cases h
  | _ => cases h

theorem BinaryOp.onValues_eq_ok {opts : Options} {op : BinaryOp} {l r v : Value}
    (h : op.onValues opts l r = .ok v) : (∃ x, v = .number x) ∨ v = .null := by
  unfold onValues at h
  split at h
  · next x y =>
    cases hop : op.onNumbers x y with
    | ok z =>
      rw [hop] at h
      cases h
      exact .inl ⟨z, rfl⟩
    | error cause =>
      rw [hop] at h
      cases h
  · split at h
    · cases h
      exact .inr rfl
    · cases h

theorem BinaryOp.onValues_eq_error {opts : Options} {op : BinaryOp} {l r : Value}
    {cause : FaultCause} (h : op.onValues opts l r = .error cause) :
    cause = .divisionByZero ∨
      opts.lenient = false ∧ cause = .typeMismatch op l.type r.type := by
  unfold onValues at h
  split at h
  · next x y =>
    cases hop : op.onNumbers x y with
    | ok z =>
      rw [hop] at h
      cases h
    | error cause' =>
      rw [hop] at h
      cases h
      exact .inl (onNumbers_eq_error hop)
  · split at h
    · cases h
    · next hl =>
      cases h
      exact .inr ⟨by simpa using hl, rfl⟩

theorem Value.propertyKey_eq_error {v : Value} {cause : FaultCause}
    (h : v.propertyKey = .error cause) : cause = .unsupported (.propertyKey v.type) := by
  cases v with
  | string s => cases h
  | number x => cases h
  | _ =>
    cases h
    rfl

theorem NativeOp.typeName_eq_ok {vs : List Value} {v : Value} (h : typeName vs = .ok v) :
    ∃ s, v = .string s := by
  unfold typeName at h
  split at h
  · cases h
    exact ⟨_, rfl⟩
  · cases h

end ScopeScript
