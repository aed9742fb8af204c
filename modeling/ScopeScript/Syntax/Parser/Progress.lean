import ScopeScript.Syntax.Parser.Program

/-!
# Parsers take tokens off the front

What a parser leaves, also when it fails, is a suffix of what it was given (`Suffix`), and a
parser of something that has tokens leaves less (`Consumes`).
-/

namespace ScopeScript.Parser

variable {α β : Type}

/-! ## Runs -/

theorem bind_apply (p : Parser α) (f : α → Parser β) (ts : List Token) :
    (p >>= f) ts =
      match p ts with
      | .ok a rest => f a rest
      | .error e rest => .error e rest := by
  simp only [bind, EStateM.bind]
  cases p ts <;> rfl

/-- A handler goes on with what the failure left. -/
theorem tryCatch_apply (p : Parser α) (f : ParseError → Parser α) (ts : List Token) :
    tryCatch p f ts =
      match p ts with
      | .ok a rest => .ok a rest
      | .error e rest => f e rest := by
  show EStateM.tryCatch p f ts = _
  delta EStateM.tryCatch
  cases p ts <;> rfl

theorem bind_of_ok {p : Parser α} {f : α → Parser β} {ts rest : List Token} {a : α}
    (h : p ts = .ok a rest) : (p >>= f) ts = f a rest := by
  rw [bind_apply, h]

theorem bind_of_error {p : Parser α} {f : α → Parser β} {ts rest : List Token} {e : ParseError}
    (h : p ts = .error e rest) : (p >>= f) ts = .error e rest := by
  rw [bind_apply, h]

theorem refuse_apply (x : Expectation) (ts : List Token) :
    (refuse x : Parser α) ts = .error (.unexpected x (next ts)) ts := rfl

theorem peek_bind (f : Token → Parser α) (ts : List Token) : (peek >>= f) ts = f (next ts) ts := rfl

theorem peekKind_bind (f : TokenKind → Parser α) (ts : List Token) :
    (peekKind >>= f) ts = f (next ts).kind ts := rfl

theorem advance_bind (f : Unit → Parser α) (ts : List Token) :
    (advance >>= f) ts = f () ts.tail := rfl

theorem expect_apply (k : TokenKind) (x : Expectation) (ts : List Token) :
    expect k x ts =
      if (next ts).kind = k then .ok (next ts) ts.tail
      else .error (.unexpected x (next ts)) ts := by
  unfold expect
  rw [peek_bind]
  split <;> rfl

/-- A token of any kind but the end stands in the list. -/
theorem length_tail_lt (ts : List Token) (h : (next ts).kind ≠ .eof) :
    ts.tail.length < ts.length := by
  cases ts with
  | nil => exact absurd rfl h
  | cons t ts => simp

/-! ## Suffixes -/

/-- The tokens that a run leaves. -/
def left : EStateM.Result ParseError (List Token) α → List Token
  | .ok _ rest => rest
  | .error _ rest => rest

/-- What is left is a suffix of what was given. -/
def Suffix (p : Parser α) : Prop := ∀ ts, left (p ts) <:+ ts

/-- If `p` succeeds on `ts`, it leaves less. -/
def ConsumesAt (p : Parser α) (ts : List Token) : Prop :=
  ∀ a rest, p ts = .ok a rest → rest.length < ts.length

/-- What is left after a success is shorter than what was given. -/
def Consumes (p : Parser α) : Prop := ∀ ts, ConsumesAt p ts

theorem Suffix.of_ok {p : Parser α} (hp : Suffix p) {ts rest : List Token} {a : α}
    (h : p ts = .ok a rest) : rest <:+ ts := by
  have := hp ts
  rwa [h] at this

theorem Suffix.length_le {p : Parser α} (hp : Suffix p) {ts rest : List Token} {a : α}
    (h : p ts = .ok a rest) : rest.length ≤ ts.length :=
  (hp.of_ok h).length_le

theorem suffix_pure (a : α) : Suffix (pure a : Parser α) := fun _ => List.suffix_refl _

theorem suffix_throw (e : ParseError) : Suffix (throw e : Parser α) := fun _ => List.suffix_refl _

theorem suffix_refuse (x : Expectation) : Suffix (refuse x : Parser α) := fun _ =>
  List.suffix_refl _

theorem suffix_peek : Suffix peek := fun _ => List.suffix_refl _

theorem suffix_peekKind : Suffix peekKind := fun _ => List.suffix_refl _

theorem suffix_advance : Suffix advance := fun ts => List.tail_suffix ts

theorem suffix_skipSemicolons : Suffix skipSemicolons := fun _ => List.dropWhile_suffix _

theorem Suffix.bind {p : Parser α} {f : α → Parser β} (hp : Suffix p) (hf : ∀ a, Suffix (f a)) :
    Suffix (p >>= f) := by
  intro ts
  cases h : p ts with
  | ok a rest =>
    rw [bind_of_ok h]
    exact (hf a rest).trans (hp.of_ok h)
  | error e rest =>
    rw [bind_of_error h]
    have := hp ts
    rwa [h] at this

theorem Consumes.bind {p : Parser α} {f : α → Parser β} (hp : Consumes p)
    (hf : ∀ a, Suffix (f a)) : Consumes (p >>= f) := by
  intro ts b rest h
  cases hr : p ts with
  | ok a mid =>
    rw [bind_of_ok hr] at h
    exact Nat.lt_of_le_of_lt ((hf a).length_le h) (hp ts a mid hr)
  | error e mid =>
    rw [bind_of_error hr] at h
    cases h

theorem Suffix.bind_consumes {p : Parser α} {f : α → Parser β} (hp : Suffix p)
    (hf : ∀ a, Consumes (f a)) : Consumes (p >>= f) := by
  intro ts b rest h
  cases hr : p ts with
  | ok a mid =>
    rw [bind_of_ok hr] at h
    exact Nat.lt_of_lt_of_le (hf a mid b rest h) (hp.length_le hr)
  | error e mid =>
    rw [bind_of_error hr] at h
    cases h

theorem consumes_refuse (x : Expectation) : Consumes (refuse x : Parser α) := by
  intro ts a rest h
  rw [refuse_apply] at h
  cases h

/-! ## Tokens and brackets -/

theorem suffix_expect (k : TokenKind) (x : Expectation) : Suffix (expect k x) := by
  intro ts
  rw [expect_apply]
  split
  · exact List.tail_suffix ts
  · exact List.suffix_refl ts

theorem consumes_expect {k : TokenKind} (x : Expectation) (hk : k ≠ .eof) :
    Consumes (expect k x) := by
  intro ts a rest h
  rw [expect_apply] at h
  split at h
  · next hn =>
    cases h
    exact length_tail_lt ts (hn ▸ hk)
  · cases h

theorem suffix_identifier : Suffix identifier :=
  (suffix_expect _ _).bind fun _ => suffix_pure _

theorem consumes_identifier : Consumes identifier :=
  (consumes_expect _ (by decide)).bind fun _ => suffix_pure _

theorem opening_ne_eof (b : Bracket) : b.opening ≠ .eof := by
  cases b <;> decide

theorem closing_ne_eof (b : Bracket) : b.closing ≠ .eof := by
  cases b <;> decide

theorem suffix_close (b : Bracket) (line : Nat) : Suffix (close b line) := by
  refine suffix_peekKind.bind fun k => ?_
  split
  · exact suffix_advance
  · split
    · exact suffix_throw _
    · exact suffix_refuse _

theorem within_apply (b : Bracket) (line : Nat) (p : Parser α) (ts : List Token) :
    within b line p ts =
      match p ts with
      | .ok a rest => .ok a rest
      | .error (.unexpected x found) rest =>
        if (next rest).kind = .eof then .error (.unclosed b line) rest
        else .error (.unexpected x found) rest
      | .error (.unclosed b' line') rest => .error (.unclosed b' line') rest := by
  rw [within, tryCatch_apply]
  cases p ts with
  | ok a rest => rfl
  | error e rest =>
    cases e with
    | unclosed b' line' => rfl
    | unexpected x found =>
      dsimp only
      rw [peekKind_bind]
      split <;> rfl

theorem within_eq_ok_iff {b : Bracket} {line : Nat} {p : Parser α} {ts rest : List Token}
    {a : α} : within b line p ts = .ok a rest ↔ p ts = .ok a rest := by
  rw [within_apply]
  split
  · next h => rw [h]
  · next h =>
    rw [h]
    split <;> simp
  · next h => simp [h]

theorem Suffix.within {p : Parser α} (hp : Suffix p) (b : Bracket) (line : Nat) :
    Suffix (within b line p) := by
  intro ts
  have hs := hp ts
  rw [within_apply]
  split
  · next h => rwa [h] at hs
  · next h =>
    rw [h] at hs
    split <;> exact hs
  · next h => rwa [h] at hs

theorem suffix_items {item : Parser α} (hi : Suffix item) (b : Bracket) (line : Nat) (n : Nat) :
    Suffix (items item b line n) := by
  induction n with
  | zero => exact suffix_throw _
  | succ n ih =>
    refine suffix_peekKind.bind fun k => ?_
    split
    · exact suffix_throw _
    · refine hi.bind fun x => suffix_peekKind.bind fun k => ?_
      split
      · exact suffix_advance.bind fun _ => ih.bind fun _ => suffix_pure _
      · split
        · exact suffix_advance.bind fun _ => suffix_pure _
        · split
          · exact suffix_throw _
          · exact suffix_refuse _

theorem suffix_commaList {item : Parser α} (hi : Suffix item) (b : Bracket) (line : Nat)
    (n : Nat) : Suffix (commaList item b line n) := by
  refine suffix_peekKind.bind fun k => ?_
  split
  · exact suffix_advance.bind fun _ => suffix_pure _
  · exact suffix_items hi b line n

/-! ## Expressions -/

theorem ConsumesAt.peek_bind {f : Token → Parser α} {ts : List Token}
    (h : ConsumesAt (f (next ts)) ts) : ConsumesAt (peek >>= f) ts := h

/-- A token that is no end token is taken off, and then anything else. -/
theorem consumesAt_advance {f : Unit → Parser α} (ts : List Token) (hf : Suffix (f ()))
    (hk : (next ts).kind ≠ .eof) : ConsumesAt (advance >>= f) ts := by
  intro a rest h
  rw [advance_bind] at h
  exact Nat.lt_of_le_of_lt (hf.length_le h) (length_tail_lt ts hk)

section Levels

variable {inner : Parser Expr}

theorem suffix_group (hi : Suffix inner) (b : Bracket) (line : Nat) :
    Suffix (within b line do
      let e ← inner
      close b line
      return e) :=
  (hi.bind fun _ => (suffix_close _ _).bind fun _ => suffix_pure _).within _ _

theorem suffix_primary (hi : Suffix inner) : Suffix (primary inner) := by
  refine suffix_peek.bind fun t => ?_
  split
  · exact suffix_advance.bind fun _ => suffix_pure _
  · refine suffix_advance.bind fun _ => ?_
    split
    · exact suffix_pure _
    · exact suffix_throw _
  · exact suffix_advance.bind fun _ => suffix_pure _
  · exact suffix_advance.bind fun _ => suffix_group hi _ _
  · exact suffix_refuse _

theorem consumes_primary (hi : Suffix inner) : Consumes (primary inner) := by
  intro ts
  refine .peek_bind ?_
  split
  · next hk => exact consumesAt_advance ts (suffix_pure _) (by simp [hk])
  · next hk =>
    refine consumesAt_advance ts ?_ (by simp [hk])
    split
    · exact suffix_pure _
    · exact suffix_throw _
  · next hk => exact consumesAt_advance ts (suffix_pure _) (by simp [hk])
  · next hk => exact consumesAt_advance ts (suffix_group hi _ _) (by simp [hk])
  · exact consumes_refuse _ _

theorem suffix_suffixes (hi : Suffix inner) (n : Nat) (e : Expr) :
    Suffix (suffixes inner n e) := by
  induction n generalizing e with
  | zero => exact suffix_pure _
  | succ n ih =>
    refine suffix_peek.bind fun t => ?_
    split
    · exact suffix_advance.bind fun _ => suffix_peek.bind fun _ =>
        suffix_identifier.bind fun _ => ih _
    · exact suffix_advance.bind fun _ => (suffix_group hi _ _).bind fun _ => ih _
    · exact suffix_advance.bind fun _ =>
        ((suffix_commaList hi _ _ _).within _ _).bind fun _ => ih _
    · exact suffix_pure _

theorem suffix_operand (hi : Suffix inner) (n : Nat) : Suffix (operand n inner) :=
  (suffix_primary hi).bind fun _ => suffix_suffixes hi n _

theorem consumes_operand (hi : Suffix inner) (n : Nat) : Consumes (operand n inner) :=
  (consumes_primary hi).bind fun _ => suffix_suffixes hi n _

theorem suffix_chain {level : Parser Expr} (hl : Suffix level) (accepts : BinaryOp → Bool)
    (n : Nat) (e : Expr) : Suffix (chain level accepts n e) := by
  induction n generalizing e with
  | zero => exact suffix_pure _
  | succ n ih =>
    refine suffix_peek.bind fun t => ?_
    split
    · split
      · exact suffix_advance.bind fun _ => hl.bind fun _ => ih _
      · exact suffix_pure _
    · exact suffix_pure _

theorem suffix_product (hi : Suffix inner) (n : Nat) : Suffix (product n inner) :=
  (suffix_operand hi n).bind fun _ => suffix_chain (suffix_operand hi n) _ _ _

theorem consumes_product (hi : Suffix inner) (n : Nat) : Consumes (product n inner) :=
  (consumes_operand hi n).bind fun _ => suffix_chain (suffix_operand hi n) _ _ _

theorem suffix_sum (hi : Suffix inner) (n : Nat) : Suffix (sum n inner) :=
  (suffix_product hi n).bind fun _ => suffix_chain (suffix_product hi n) _ _ _

theorem consumes_sum (hi : Suffix inner) (n : Nat) : Consumes (sum n inner) :=
  (consumes_product hi n).bind fun _ => suffix_chain (suffix_product hi n) _ _ _

theorem suffix_properties (hi : Suffix inner) (n : Nat) : Suffix (properties inner n) := by
  induction n with
  | zero => exact suffix_pure _
  | succ n ih =>
    refine suffix_peek.bind fun t => ?_
    split
    · exact suffix_pure _
    · refine suffix_identifier.bind fun _ => suffix_peekKind.bind fun k => ?_
      split
      · exact suffix_advance.bind fun _ => ih.bind fun _ => suffix_pure _
      · split
        · exact ih.bind fun _ => suffix_pure _
        · refine (suffix_expect _ _).bind fun _ => hi.bind fun _ => suffix_peekKind.bind fun k => ?_
          split
          · exact suffix_advance.bind fun _ => ih.bind fun _ => suffix_pure _
          · split
            · exact ih.bind fun _ => suffix_pure _
            · exact suffix_refuse _

theorem suffix_literal (hi : Suffix inner) (n : Nat) (line : Nat) :
    Suffix (within .curly line do
      let ps ← properties inner n
      close .curly line
      return Expr.object ps line) :=
  ((suffix_properties hi n).bind fun _ => (suffix_close _ _).bind fun _ => suffix_pure _).within
    _ _

theorem suffix_objectLevel (hi : Suffix inner) (n : Nat) : Suffix (objectLevel n inner) := by
  refine suffix_peek.bind fun t => ?_
  split
  · exact suffix_advance.bind fun _ => suffix_literal hi n _
  · exact suffix_sum hi n

theorem consumes_objectLevel (hi : Suffix inner) (n : Nat) : Consumes (objectLevel n inner) := by
  intro ts
  refine .peek_bind ?_
  split
  · next hk => exact consumesAt_advance ts (suffix_literal hi n _) (by simp [hk])
  · exact consumes_sum hi n ts

theorem suffix_afterTarget (hi : Suffix inner) (e : Expr) :
    Suffix (do
      let t ← peek
      if t.kind = .equals then
        advance
        return .assign e (← inner) t.line
      else return e) := by
  refine suffix_peek.bind fun t => ?_
  split
  · exact suffix_advance.bind fun _ => hi.bind fun _ => suffix_pure _
  · exact suffix_pure _

theorem suffix_assignment (hi : Suffix inner) (n : Nat) : Suffix (assignment n inner) :=
  (suffix_objectLevel hi n).bind fun _ => suffix_afterTarget hi _

theorem consumes_assignment (hi : Suffix inner) (n : Nat) : Consumes (assignment n inner) :=
  (consumes_objectLevel hi n).bind fun _ => suffix_afterTarget hi _

end Levels

theorem suffix_expressionAt (n : Nat) : Suffix (expressionAt n) := by
  induction n with
  | zero => exact suffix_refuse _
  | succ n ih => exact suffix_assignment ih _

theorem consumes_expressionAt (n : Nat) : Consumes (expressionAt n) := by
  cases n with
  | zero => exact consumes_refuse _
  | succ n => exact consumes_assignment (suffix_expressionAt n) _

/-! ## Statements -/

theorem suffix_declaration (n : Nat) (constant : Bool) : Suffix (declaration n constant) := by
  refine suffix_peek.bind fun _ => suffix_advance.bind fun _ => suffix_identifier.bind fun _ =>
    suffix_peekKind.bind fun k => ?_
  split
  · exact suffix_advance.bind fun _ => (suffix_expressionAt n).bind fun _ => suffix_pure _
  · exact suffix_pure _

section Statements

variable {item : Parser Stmt}

theorem suffix_statements (hi : Suffix item) (ends : TokenKind → Bool) (n : Nat) :
    Suffix (statements item ends n) := by
  induction n with
  | zero => exact suffix_pure _
  | succ n ih =>
    refine suffix_skipSemicolons.bind fun _ => suffix_peekKind.bind fun k => ?_
    split
    · exact suffix_pure _
    · exact hi.bind fun _ => ih.bind fun _ => suffix_pure _

theorem suffix_blockBody (hi : Suffix item) (n line : Nat) :
    Suffix (within .curly line do
      let body ← statements item endsBlock n
      close .curly line
      return body) :=
  ((suffix_statements hi _ n).bind fun _ => (suffix_close _ _).bind fun _ => suffix_pure _).within
    _ _

theorem suffix_block (hi : Suffix item) (n : Nat) : Suffix (block n item) :=
  (suffix_expect _ _).bind fun _ => suffix_blockBody hi n _

theorem consumes_block (hi : Suffix item) (n : Nat) : Consumes (block n item) :=
  (consumes_expect _ (by decide)).bind fun _ => suffix_blockBody hi n _

theorem suffix_function (hi : Suffix item) (n : Nat) : Suffix (function n item) :=
  suffix_peek.bind fun _ => suffix_advance.bind fun _ => suffix_identifier.bind fun _ =>
    (suffix_expect _ _).bind fun _ =>
      ((suffix_commaList suffix_identifier _ _ _).within _ _).bind fun _ =>
        (suffix_block hi n).bind fun _ => suffix_pure _

theorem suffix_statementWith (hi : Suffix item) (n : Nat) : Suffix (statementWith n item) := by
  refine suffix_peek.bind fun t => ?_
  split
  · exact suffix_declaration n _
  · exact suffix_declaration n _
  · exact suffix_function hi n
  · exact (suffix_expressionAt n).bind fun _ => suffix_pure _

theorem consumes_declaration (n : Nat) (constant : Bool) : Consumes (declaration n constant) := by
  refine suffix_peek.bind_consumes fun _ => suffix_advance.bind_consumes fun _ =>
    consumes_identifier.bind fun _ => suffix_peekKind.bind fun k => ?_
  split
  · exact suffix_advance.bind fun _ => (suffix_expressionAt n).bind fun _ => suffix_pure _
  · exact suffix_pure _

theorem consumes_function (hi : Suffix item) (n : Nat) : Consumes (function n item) :=
  suffix_peek.bind_consumes fun _ => suffix_advance.bind_consumes fun _ =>
    consumes_identifier.bind fun _ => (suffix_expect _ _).bind fun _ =>
      ((suffix_commaList suffix_identifier _ _ _).within _ _).bind fun _ =>
        (suffix_block hi n).bind fun _ => suffix_pure _

theorem consumes_statementWith (hi : Suffix item) (n : Nat) : Consumes (statementWith n item) := by
  refine suffix_peek.bind_consumes fun t => ?_
  split
  · exact consumes_declaration n _
  · exact consumes_declaration n _
  · exact consumes_function hi n
  · exact (consumes_expressionAt n).bind fun _ => suffix_pure _

end Statements

theorem suffix_statementAt (n : Nat) : Suffix (statementAt n) := by
  induction n with
  | zero => exact suffix_refuse _
  | succ n ih => exact suffix_statementWith ih _

theorem consumes_statementAt (n : Nat) : Consumes (statementAt n) := by
  cases n with
  | zero => exact consumes_refuse _
  | succ n => exact consumes_statementWith (suffix_statementAt n) _

end ScopeScript.Parser
