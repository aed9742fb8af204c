import ScopeScript.Proofs.Grammar.Soundness
import ScopeScript.Syntax.Parser.Unfolding

/-!
# Parsers read everything in the grammar

A phrase is read to its end when what follows cannot continue it.  The repetitions of the parser
go on from a phrase that has been read: after the operand `e` in front of `rest`, `operand` does what
`suffixes e` does on `rest`.  So the statement to prove by induction over the phrase depends on its level
(`Phrase.ReadFrom`).

    expression_complete   expression reads an expression that no call is torn from
    program_complete      program reads greedy statements up to an end token
-/

namespace ScopeScript.Grammar

open ScopeScript.Parser

variable {α β : Type}

/-- What `p` does on `ts` is what `q` does on `us`. -/
def Becomes (p : Parser α) (ts : List Token) (q : Parser α) (us : List Token) : Prop := p ts = q us

namespace Becomes

variable {ts us mid : List Token} {q : Parser α}

theorem bind {p : Parser β} {f : β → Parser α} {b : β} (hp : p ts = .ok b mid)
    (h : Becomes (f b) mid q us) : Becomes (p >>= f) ts q us :=
  (bind_of_ok hp).trans h

theorem peek_bind {f : Token → Parser α} (h : Becomes (f (next ts)) ts q us) :
    Becomes (peek >>= f) ts q us := h

theorem peekKind_bind {f : TokenKind → Parser α} (h : Becomes (f (next ts).kind) ts q us) :
    Becomes (peekKind >>= f) ts q us := h

theorem advance_bind {t : Token} {f : Unit → Parser α} (h : Becomes (f ()) ts q us) :
    Becomes (advance >>= f) (t :: ts) q us := h

theorem skipSemicolons_bind {f : Unit → Parser α}
    (h : Becomes (f ()) (ts.dropWhile (·.kind == .semicolon)) q us) :
    Becomes (skipSemicolons >>= f) ts q us := h

end Becomes

/-! ## Single tokens -/

theorem close_apply {b : Bracket} {line : Nat} {closer : Token} {rest : List Token}
    (h : closer.kind = b.closing) : close b line (closer :: rest) = .ok () rest := by
  unfold close
  rw [Parser.peekKind_bind, next_cons, if_pos h]
  rfl

theorem expect_of_kind {kind : TokenKind} (x : Expectation) {t : Token} {rest : List Token}
    (h : t.kind = kind) : expect kind x (t :: rest) = .ok t rest := by
  rw [expect_apply, next_cons, if_pos h]
  rfl

theorem identifier_apply {t : Token} {rest : List Token} (h : t.kind = .identifier) :
    identifier (t :: rest) = .ok t.text rest := by
  unfold identifier
  rw [bind_of_ok (expect_of_kind .identifier h)]
  rfl

/-! ## Lists -/

section Items

variable {item : Parser α} {b : Bracket} {line n : Nat} {ts rest : List Token} {x : α}

theorem items_last (hne : (next ts).kind ≠ .eof) {closer : Token}
    (h : item ts = .ok x (closer :: rest)) (hc : closer.kind = b.closing) :
    items item b line (n + 1) ts = .ok [x] rest := by
  have hcomma : closer.kind ≠ .comma := by
    rw [hc]
    cases b <;> decide
  show Becomes (items item b line (n + 1)) ts (pure [x]) rest
  unfold items
  apply Becomes.peekKind_bind
  rw [if_neg hne]
  refine .bind h (.peekKind_bind ?_)
  rw [next_cons, if_neg hcomma, if_pos hc]
  rfl

theorem items_cons (hne : (next ts).kind ≠ .eof) {comma : Token} {mid : List Token} {xs : List α}
    (h : item ts = .ok x (comma :: mid)) (hc : comma.kind = .comma)
    (hxs : items item b line n mid = .ok xs rest) :
    items item b line (n + 1) ts = .ok (x :: xs) rest := by
  show Becomes (items item b line (n + 1)) ts (pure (x :: xs)) rest
  unfold items
  apply Becomes.peekKind_bind
  rw [if_neg hne]
  refine .bind h (.peekKind_bind ?_)
  rw [next_cons, if_pos hc]
  exact .advance_bind (.bind hxs rfl)

end Items

/-! ## Bounds -/

section Bounds

variable {m n : Nat} {ts : List Token}

/-- A bound on tokens that go on with `t` is a successor, and its predecessor bounds what is behind. -/
theorem exists_succ_of_cons_le {t : Token} (h : (t :: ts).length ≤ n) :
    ∃ m, n = m + 1 ∧ ts.length ≤ m := by
  rw [List.length_cons] at h
  exact ⟨n - 1, by omega, by omega⟩

theorem suffixes_bound (e : Expr) (hm : ts.length ≤ m) (hn : ts.length ≤ n) :
    suffixes expression m e ts = suffixes expression n e ts :=
  suffixes_same (k := ts.length) consumes_expression suffix_expression (fun _ _ => .refl _ _) e
    (Nat.le_refl _) hm hn

theorem chain_bound {level : Parser Expr} (hs : Suffix level) (accepts : BinaryOp → Bool) (e : Expr)
    (hm : ts.length ≤ m) (hn : ts.length ≤ n) :
    chain level accepts m e ts = chain level accepts n e ts :=
  chain_same (b := ts.length) hs (fun _ _ => .refl _ _) accepts e (Nat.le_refl _) hm hn

end Bounds

/-! ## Where a phrase stops -/

def startsSuffix : TokenKind → Bool
  | .dot | .leftBracket | .leftParen => true
  | _ => false

/-- Tokens that an expression goes on with, whatever it ends in. -/
def continues : TokenKind → Bool
  | .dot | .leftBracket | .operator => true
  | _ => false

/-- What follows an expression is no part of it. -/
def Stops (ts rest : List Token) : Prop :=
  continues (next rest).kind = false ∧ ¬ TearsCall ts rest

theorem Stops.of_suffix {ts us rest : List Token} (h : Stops ts rest) (hs : us <:+ ts) :
    Stops us rest :=
  ⟨h.1, fun htears => h.2 ⟨htears.1.of_suffix hs, htears.2⟩⟩

/-- Tokens that follow expressions inside a larger one. -/
theorem Stops.of_kind {ts rest : List Token} {t : Token} {kind : TokenKind} (ht : t.kind = kind)
    (hc : continues kind = false) (hp : kind ≠ .leftParen) : Stops ts (t :: rest) := by
  rw [← ht] at hc hp
  exact ⟨hc, fun htears => hp htears.2⟩

theorem suffixes_stop {e : Expr} {rest : List Token} (h : startsSuffix (next rest).kind = false)
    (n : Nat) : suffixes expression n e rest = .ok e rest := by
  cases n with
  | zero => rfl
  | succ n =>
    show Becomes (suffixes expression (n + 1) e) rest (pure e) rest
    apply Becomes.peek_bind
    split
    · next hk => simp [hk, startsSuffix] at h
    · next hk => simp [hk, startsSuffix] at h
    · next hk => simp [hk, startsSuffix] at h
    · rfl

theorem chain_stop {level : Parser Expr} {accepts : BinaryOp → Bool} {e : Expr} {rest : List Token}
    (h : ∀ op, operatorOf? (next rest) = some op → accepts op = false) (n : Nat) :
    chain level accepts n e rest = .ok e rest := by
  cases n with
  | zero => rfl
  | succ n =>
    show Becomes (chain level accepts (n + 1) e) rest (pure e) rest
    apply Becomes.peek_bind
    split
    · next op hop =>
      rw [h op hop]
      rfl
    · rfl

theorem operatorOf?_of_kind {t : Token} (h : t.kind ≠ .operator) (op : BinaryOp) :
    operatorOf? t ≠ some op :=
  fun hop => h (operatorOf?_eq_some.1 hop).1

/-! ## Suffixes and chains that go on -/

section Continuing

variable {n : Nat} {e : Expr} {mid rest : List Token}

theorem suffixes_dot {t name : Token} (ht : t.kind = .dot) (hn : name.kind = .identifier)
    (hlen : (t :: name :: rest).length ≤ n) :
    suffixes expression n e (t :: name :: rest) =
      suffixes expression n (.dot e (.name name.text name.line) t.line) rest := by
  obtain ⟨n, rfl, hname⟩ := exists_succ_of_cons_le hlen
  rw [List.length_cons] at hname
  have hbound (e : Expr) : suffixes expression (n + 1) e rest = suffixes expression n e rest :=
    suffixes_bound e (by omega) (by omega)
  rw [hbound]
  show Becomes (suffixes expression (n + 1) e) (t :: name :: rest) _ rest
  apply Becomes.peek_bind
  rw [next_cons, ht]
  exact .advance_bind (.peek_bind (.bind (identifier_apply hn) rfl))

theorem suffixes_index {opener closer : Token} {key : Expr} (ho : opener.kind = .leftBracket)
    (hkey : expression mid = .ok key (closer :: rest)) (hc : closer.kind = .rightBracket)
    (hlen : (opener :: mid).length ≤ n) (hrest : rest.length ≤ mid.length) :
    suffixes expression n e (opener :: mid) =
      suffixes expression n (.index e key opener.line) rest := by
  obtain ⟨n, rfl, hlen⟩ := exists_succ_of_cons_le hlen
  have hbound (e : Expr) : suffixes expression (n + 1) e rest = suffixes expression n e rest :=
    suffixes_bound e (by omega) (by omega)
  rw [hbound]
  show Becomes (suffixes expression (n + 1) e) (opener :: mid) _ rest
  apply Becomes.peek_bind
  rw [next_cons, ho]
  refine .advance_bind (.bind (within_eq_ok_iff.2 ?_) rfl)
  show Becomes _ mid (pure key) rest
  exact .bind hkey (.bind (close_apply hc) rfl)

theorem suffixes_call {opener : Token} {es : List Expr} (ho : opener.kind = .leftParen)
    (hes : ∀ line n, mid.length ≤ n → commaList expression .round line n mid = .ok es rest)
    (hlen : (opener :: mid).length ≤ n) (hrest : rest.length ≤ mid.length) :
    suffixes expression n e (opener :: mid) =
      suffixes expression n (.call e es opener.line) rest := by
  obtain ⟨n, rfl, hlen⟩ := exists_succ_of_cons_le hlen
  have hbound (e : Expr) : suffixes expression (n + 1) e rest = suffixes expression n e rest :=
    suffixes_bound e (by omega) (by omega)
  rw [hbound]
  show Becomes (suffixes expression (n + 1) e) (opener :: mid) _ rest
  apply Becomes.peek_bind
  rw [next_cons, ho]
  exact .advance_bind (.bind (within_eq_ok_iff.2 (hes opener.line n (by omega))) rfl)

theorem chain_operator {level : Parser Expr} (hs : Suffix level) {accepts : BinaryOp → Bool}
    {t : Token} {op : BinaryOp} {right : Expr} (hop : operatorOf? t = some op)
    (ha : accepts op = true) (hr : level mid = .ok right rest) (hlen : (t :: mid).length ≤ n) :
    chain level accepts n e (t :: mid) =
      chain level accepts n (.binary e op right t.line) rest := by
  obtain ⟨n, rfl, hlen⟩ := exists_succ_of_cons_le hlen
  have hle := hs.length_le hr
  have hbound (e : Expr) : chain level accepts (n + 1) e rest = chain level accepts n e rest :=
    chain_bound hs accepts e (by omega) (by omega)
  rw [hbound]
  show Becomes (chain level accepts (n + 1) e) (t :: mid) _ rest
  apply Becomes.peek_bind
  rw [next_cons, hop]
  show Becomes (if accepts op = true then _ else _) (t :: mid) _ rest
  rw [if_pos ha]
  exact .advance_bind (.bind hr rfl)

end Continuing

/-! ## Expressions -/

/-- Properties up to a brace, one of which has been read and is followed by `rest`. -/
def PropertyRead (ts : List Token) (p : Property) (rest : List Token) : Prop :=
  (∀ n ps us mid comma, rest = comma :: mid → comma.kind = .comma →
      properties expression n mid = .ok ps us →
      properties expression (n + 1) ts = .ok (p :: ps) us) ∧
    ((next rest).kind = .rightBrace → ∀ n, properties expression (n + 1) ts = .ok [p] rest)

/-- What the parsers make of the phrase between `ts` and `rest`. -/
def Phrase.ReadFrom (ts rest : List Token) : Phrase → Prop
  | .expr .primary e => Parser.primary expression ts = .ok e rest
  | .expr .operand e => ∀ n, ts.length ≤ n →
      Parser.operand n expression ts = suffixes expression n e rest
  | .expr .product e => startsSuffix (next rest).kind = false → ∀ n, ts.length ≤ n →
      Parser.product n expression ts =
        chain (Parser.operand n expression) isMultiplicative n e rest
  | .expr .sum e => startsSuffix (next rest).kind = false →
      (∀ op, operatorOf? (next rest) = some op → isMultiplicative op = false) →
      ∀ n, ts.length ≤ n →
        Parser.sum n expression ts = chain (Parser.product n expression) isAdditive n e rest
  | .expr .objectLevel e => Stops ts rest → ∀ n, ts.length ≤ n →
      Parser.objectLevel n expression ts = .ok e rest
  | .expr .expression e => Stops ts rest → (next rest).kind ≠ .equals →
      expression ts = .ok e rest
  | .arguments es => ∀ closer us, rest = closer :: us → closer.kind = .rightParen →
      ∀ line n, ts.length ≤ n → commaList expression .round line n ts = .ok es us
  | .property p => PropertyRead ts p rest
  | .properties ps => (next rest).kind = .rightBrace → ∀ n, ts.length ≤ n →
      Parser.properties expression n ts = .ok ps rest

theorem primary_group {opener closer : Token} {mid rest : List Token} {e : Expr}
    (ho : opener.kind = .leftParen) (he : expression mid = .ok e (closer :: rest))
    (hc : closer.kind = .rightParen) : Parser.primary expression (opener :: mid) = .ok e rest := by
  show Becomes (Parser.primary expression) (opener :: mid) (pure e) rest
  apply Becomes.peek_bind
  rw [next_cons, ho]
  refine .advance_bind ?_
  show within .round opener.line _ mid = .ok e rest
  refine within_eq_ok_iff.2 ?_
  show Becomes _ mid (pure e) rest
  exact .bind he (.bind (close_apply hc) rfl)

theorem objectLevel_object {opener closer : Token} {mid rest : List Token} {ps : List Property}
    {n : Nat} (ho : opener.kind = .leftBrace)
    (hps : Parser.properties expression n mid = .ok ps (closer :: rest))
    (hc : closer.kind = .rightBrace) :
    Parser.objectLevel n expression (opener :: mid) = .ok (.object ps opener.line) rest := by
  show Becomes (Parser.objectLevel n expression) (opener :: mid) (pure _) rest
  apply Becomes.peek_bind
  rw [next_cons, if_pos ho]
  refine .advance_bind ?_
  show within .curly opener.line _ mid = .ok _ rest
  refine within_eq_ok_iff.2 ?_
  show Becomes _ mid (pure _) rest
  exact .bind hps (.bind (close_apply hc) rfl)

theorem commaList_closed {item : Parser α} {b : Bracket} {line n : Nat} {closer : Token}
    {rest : List Token} (hc : closer.kind = b.closing) :
    commaList item b line n (closer :: rest) = .ok [] rest := by
  show Becomes (commaList item b line n) (closer :: rest) (pure []) rest
  apply Becomes.peekKind_bind
  rw [next_cons, if_pos hc]
  rfl

theorem commaList_of_items {item : Parser α} {b : Bracket} {line n : Nat} {ts : List Token}
    (h : (next ts).kind ≠ b.closing) : commaList item b line n ts = items item b line n ts := by
  show Becomes (commaList item b line n) ts (items item b line n) ts
  apply Becomes.peekKind_bind
  rw [if_neg h]
  rfl

theorem PropertyRead.shorthand {key : Token} {rest : List Token} (hk : key.kind = .identifier) :
    PropertyRead (key :: rest) (.shorthand key.text key.line) rest := by
  have hstart : ¬ (key.kind = .rightBrace ∨ key.kind = .eof) := by
    rw [hk]
    decide
  constructor
  · rintro n ps us mid comma rfl hc hps
    show Becomes (Parser.properties expression (n + 1)) _ (pure _) us
    apply Becomes.peek_bind
    rw [next_cons, if_neg hstart]
    refine .bind (identifier_apply hk) (.peekKind_bind ?_)
    rw [next_cons, if_pos hc]
    exact .advance_bind (.bind hps rfl)
  · intro hclose n
    have hcomma : (next rest).kind ≠ .comma := by
      rw [hclose]
      decide
    show Becomes (Parser.properties expression (n + 1)) _ (pure _) rest
    apply Becomes.peek_bind
    rw [next_cons, if_neg hstart]
    refine .bind (identifier_apply hk) (.peekKind_bind ?_)
    rw [if_neg hcomma, if_pos hclose]
    exact .bind (properties_of_end expression n (.inl hclose)) rfl

theorem PropertyRead.field {key colon : Token} {mid rest : List Token} {e : Expr}
    (hk : key.kind = .identifier) (hc : colon.kind = .colon)
    (he : (next rest).kind = .comma ∨ (next rest).kind = .rightBrace →
      expression mid = .ok e rest) :
    PropertyRead (key :: colon :: mid) (.field key.text e key.line) rest := by
  have hstart : ¬ (key.kind = .rightBrace ∨ key.kind = .eof) := by
    rw [hk]
    decide
  have hcolon : colon.kind ≠ .comma ∧ colon.kind ≠ .rightBrace := by
    rw [hc]
    decide
  constructor
  · rintro n ps us mid' comma rfl hcomma hps
    show Becomes (Parser.properties expression (n + 1)) _ (pure _) us
    apply Becomes.peek_bind
    rw [next_cons, if_neg hstart]
    refine .bind (identifier_apply hk) (.peekKind_bind ?_)
    rw [next_cons, if_neg hcolon.1, if_neg hcolon.2]
    refine .bind (expect_of_kind _ hc) (.bind (he (.inl hcomma)) (.peekKind_bind ?_))
    rw [next_cons, if_pos hcomma]
    exact .advance_bind (.bind hps rfl)
  · intro hclose n
    have hcomma : (next rest).kind ≠ .comma := by
      rw [hclose]
      decide
    show Becomes (Parser.properties expression (n + 1)) _ (pure _) rest
    apply Becomes.peek_bind
    rw [next_cons, if_neg hstart]
    refine .bind (identifier_apply hk) (.peekKind_bind ?_)
    rw [next_cons, if_neg hcolon.1, if_neg hcolon.2]
    refine .bind (expect_of_kind _ hc) (.bind (he (.inr hclose)) (.peekKind_bind ?_))
    rw [if_neg hcomma, if_pos (.inl hclose)]
    exact .bind (properties_of_end expression n (.inl hclose)) rfl

theorem not_startsSuffix_of_stops {ts rest : List Token} (h : Stops ts rest)
    (hends : EndsInOperand ts rest) : startsSuffix (next rest).kind = false := by
  have hparen : (next rest).kind ≠ .leftParen := fun hp => h.2 ⟨hends, hp⟩
  have hcontinues := h.1
  generalize (next rest).kind = kind at *
  cases kind <;> simp_all [startsSuffix, continues]

theorem Spells.starts_inside {ts rest : List Token} {level : Level} {e : Expr}
    (h : Spells ts (.expr level e) rest) :
    (next ts).kind ≠ .rightParen ∧ (next ts).kind ≠ .eof :=
  ⟨ne_of_starts h.startsWith.1 rfl, ne_of_starts h.startsWith.1 rfl⟩

theorem Spells.length_lt_of_property {ts rest : List Token} {p : Property}
    (h : Spells ts (.property p) rest) : rest.length < ts.length := by
  refine h.detached.length_lt fun us hus heof => ?_
  rw [hus.startsWith] at heof
  cases heof

theorem Spells.readFrom {ts rest : List Token} {phrase : Phrase} (h : Spells ts phrase rest) :
    phrase.ReadFrom ts rest := by
  induction h with
  | @name t rest h | @string t rest h =>
    show Becomes (Parser.primary expression) (t :: rest) (pure _) rest
    apply Becomes.peek_bind
    rw [next_cons, h]
    exact .advance_bind rfl
  | @number t rest x h hx =>
    show Becomes (Parser.primary expression) (t :: rest) (pure _) rest
    apply Becomes.peek_bind
    rw [next_cons, h]
    apply Becomes.advance_bind
    rw [hx]
    rfl
  | group ho _ hc ih =>
    refine primary_group ho (ih (.of_kind hc rfl (by decide)) ?_) hc
    rw [next_cons, hc]
    decide
  | @primary ts rest e h ih =>
    intro n hn
    have hle := h.suffix.length_le
    exact bind_of_ok ih
  | @dot t name ts rest e he ht hn ih =>
    intro n hlen
    have hle := he.suffix.length_le
    rw [ih n hlen, suffixes_dot ht hn (Nat.le_trans hle hlen)]
  | @index opener closer ts mid rest e key he ho hk hc ihe ihk =>
    intro n hlen
    have hle := he.suffix.length_le
    have hmid := hk.suffix.length_le
    have hkey : expression mid = .ok key (closer :: rest) := by
      refine ihk (.of_kind hc rfl (by decide)) ?_
      rw [next_cons, hc]
      decide
    rw [ihe n hlen, suffixes_index ho hkey hc (Nat.le_trans hle hlen) (by simp at hmid; omega)]
  | @call opener closer ts mid rest f es hf ho ha hc ihf iha =>
    intro n hlen
    have hle := hf.suffix.length_le
    have hmid := ha.suffix.length_le
    rw [ihf n hlen, suffixes_call ho (iha closer rest rfl hc) (Nat.le_trans hle hlen)
      (by simp at hmid; omega)]
  | @operand ts rest e h ih =>
    intro hstop n hlen
    have hread : Parser.operand n expression ts = .ok e rest := by
      rw [ih n hlen, suffixes_stop hstop]
    exact bind_of_ok hread
  | @times t ts mid rest l r op hl hk ht hop hr ihl ihr =>
    intro hstop n hlen
    have hle := hl.suffix.length_le
    have hstart : startsSuffix (next (t :: mid)).kind = false := by
      rw [next_cons, hk]
      rfl
    have hright : Parser.operand n expression mid = .ok r rest := by
      have hmid : mid.length ≤ n := by
        simp only [List.length_cons] at hle
        omega
      rw [ihr n hmid, suffixes_stop hstop]
    rw [ihl hstart n hlen]
    exact chain_operator (suffix_operand suffix_expression n) (operatorOf?_eq_some.2 ⟨hk, ht⟩)
      (isMultiplicative_iff.2 hop) hright (Nat.le_trans hle hlen)
  | @product ts rest e h ih =>
    intro hstop hop n hlen
    have hread : Parser.product n expression ts = .ok e rest := by
      rw [ih hstop n hlen, chain_stop hop]
    exact bind_of_ok hread
  | @plus t ts mid rest l r op hl hk ht hop hr ihl ihr =>
    intro hstop hmul n hlen
    have hle := hl.suffix.length_le
    have hstart : startsSuffix (next (t :: mid)).kind = false := by
      rw [next_cons, hk]
      rfl
    have hadd (op' : BinaryOp) (h : operatorOf? (next (t :: mid)) = some op') :
        isMultiplicative op' = false := by
      have heq : op' = op := by
        have := operatorOf?_eq_some.2 ⟨hk, ht⟩
        rw [next_cons, this] at h
        exact (Option.some.inj h).symm
      rw [heq, isMultiplicative, isAdditive_iff.2 hop]
      rfl
    have hright : Parser.product n expression mid = .ok r rest := by
      have hmid : mid.length ≤ n := by
        simp only [List.length_cons] at hle
        omega
      rw [ihr hstop n hmid, chain_stop hmul]
    rw [ihl hstart hadd n hlen]
    exact chain_operator (suffix_product suffix_expression n) (operatorOf?_eq_some.2 ⟨hk, ht⟩)
      (isAdditive_iff.2 hop) hright (Nat.le_trans hle hlen)
  | @object opener closer ts rest ps ho _ hc ih =>
    intro _ n hlen
    have hclose : (next (closer :: rest)).kind = .rightBrace := hc
    have hle : ts.length ≤ n := by
      simp only [List.length_cons] at hlen
      omega
    exact objectLevel_object ho (ih hclose n hle) hc
  | @sum ts rest e h ih =>
    intro hstops n hlen
    have hoperator (op : BinaryOp) : operatorOf? (next rest) ≠ some op := by
      refine operatorOf?_of_kind (fun hk => ?_) op
      have := hstops.1
      rw [hk] at this
      cases this
    have hbrace : (next ts).kind ≠ .leftBrace := by
      intro hk
      have := h.startsWith.2 (by decide)
      rw [hk] at this
      cases this
    have hsum := ih (not_startsSuffix_of_stops hstops h.endsInOperand)
      (fun op hop => absurd hop (hoperator op)) n hlen
    rw [chain_stop fun op hop => absurd hop (hoperator op)] at hsum
    show Becomes (Parser.objectLevel n expression) ts (pure e) rest
    apply Becomes.peek_bind
    rw [if_neg hbrace]
    exact hsum
  | @objectLevel ts rest e h ih =>
    intro hstops hequals
    rw [expression_eq]
    show Becomes (Parser.assignment ts.length expression) ts (pure e) rest
    refine .bind (ih hstops ts.length (Nat.le_refl _)) (.peek_bind ?_)
    rw [if_neg hequals]
    rfl
  | @assign t ts mid rest l r hl ht hr ihl ihr =>
    intro hstops hequals
    have hsuffix := (List.suffix_cons t mid).trans hl.suffix
    rw [expression_eq]
    show Becomes (Parser.assignment ts.length expression) ts (pure _) rest
    refine .bind (ihl (.of_kind ht rfl (by decide)) ts.length (Nat.le_refl _)) (.peek_bind ?_)
    rw [next_cons, if_pos ht]
    exact .advance_bind (.bind (ihr (hstops.of_suffix hsuffix) hequals) rfl)
  | noArguments =>
    rintro closer us rfl hc line n -
    exact commaList_closed hc
  | @lastArgument ts rest e h ih =>
    rintro closer us rfl hc line n hlen
    have hread : expression ts = .ok e (closer :: us) := by
      refine ih (.of_kind hc rfl (by decide)) ?_
      rw [next_cons, hc]
      decide
    obtain ⟨hparen, heof⟩ := h.starts_inside
    have hlt := h.length_lt
    obtain ⟨n, rfl⟩ : ∃ m, n = m + 1 := Nat.exists_eq_add_one.2 (by omega)
    rw [commaList_of_items hparen]
    exact items_last heof hread hc
  | @argument comma ts mid rest e e' es h hc hes ihe ihes =>
    rintro closer us rfl hclose line n hlen
    have hread : expression ts = .ok e (comma :: mid) := by
      refine ihe (.of_kind hc rfl (by decide)) ?_
      rw [next_cons, hc]
      decide
    obtain ⟨hparen, heof⟩ := h.starts_inside
    have hlt := h.length_lt
    simp only [List.length_cons] at hlt
    obtain ⟨n, rfl⟩ : ∃ m, n = m + 1 := Nat.exists_eq_add_one.2 (by omega)
    have hmid : (next mid).kind ≠ .rightParen := by
      intro hk
      have := hes.startsWith (by simp)
      rw [hk] at this
      cases this
    have hrest := ihes closer us rfl hclose line n (by omega)
    rw [commaList_of_items hmid] at hrest
    rw [commaList_of_items hparen]
    exact items_cons heof hread hc hrest
  | shorthand h => exact .shorthand h
  | @field key colon ts rest e hk hc _ ih =>
    refine .field hk hc fun hrest => ?_
    have hends : continues (next rest).kind = false ∧ (next rest).kind ≠ .leftParen ∧
        (next rest).kind ≠ .equals := by
      rcases hrest with hk | hk
      · rw [hk]
        decide
      · rw [hk]
        decide
    exact ih ⟨hends.1, fun htears => hends.2.1 htears.2⟩ hends.2.2
  | noProperties => exact fun hclose n _ => properties_of_end expression n (.inl hclose)
  | @lastProperty ts rest p h ih =>
    intro hclose n hlen
    have hlt := h.length_lt_of_property
    obtain ⟨n, rfl⟩ : ∃ m, n = m + 1 := Nat.exists_eq_add_one.2 (by omega)
    exact ih.2 hclose n
  | @propertyThen comma ts mid rest p ps h hc _ ihp ihps =>
    intro hclose n hlen
    have hlt := h.length_lt_of_property
    simp only [List.length_cons] at hlt
    obtain ⟨n, rfl⟩ : ∃ m, n = m + 1 := Nat.exists_eq_add_one.2 (by omega)
    exact ihp.1 n ps rest mid comma rfl hc (ihps hclose n (by omega))

/-- An expression is read to its end. -/
theorem expression_complete {ts rest : List Token} {e : Expr}
    (h : Spells ts (.expr .expression e) rest) (hs : Stops ts rest)
    (hequals : (next rest).kind ≠ .equals) : expression ts = .ok e rest :=
  h.readFrom hs hequals

/-! ## Statements -/

theorem parameters_complete {ts us : List Token} {params : List String} {closer : Token}
    (h : Parameters ts params (closer :: us)) (hc : closer.kind = .rightParen) (line : Nat)
    {n : Nat} (hlen : ts.length ≤ n) :
    commaList identifier .round line n ts = .ok params us := by
  generalize hrest : closer :: us = rest at h
  induction h generalizing n with
  | none =>
    subst hrest
    exact commaList_closed hc
  | @last t rest ht =>
    subst hrest
    obtain ⟨n, rfl, -⟩ := exists_succ_of_cons_le hlen
    have hparen : (next (t :: closer :: us)).kind ≠ .rightParen := by simp [ht]
    rw [commaList_of_items hparen]
    exact items_last (by simp [ht]) (identifier_apply ht) hc
  | @cons t comma mid rest p ps ht hcomma hps ih =>
    simp only [List.length_cons] at hlen
    obtain ⟨n, rfl⟩ : ∃ m, n = m + 1 := Nat.exists_eq_add_one.2 (by omega)
    have hread := ih (n := n) (by omega) hrest
    have hmid : (next mid).kind ≠ .rightParen := by
      cases hps with
      | last h => simp [h]
      | cons h _ _ => simp [h]
    have hparen : (next (t :: comma :: mid)).kind ≠ .rightParen := by simp [ht]
    rw [commaList_of_items hmid] at hread
    rw [commaList_of_items hparen]
    exact items_cons (by simp [ht]) (identifier_apply ht) hcomma hread

/-- Tokens that no statement goes on with, a call apart. -/
def endsStatement (kind : TokenKind) : Bool := !continues kind && kind != .equals

theorem endsStatement_of_starts {kind : TokenKind} (h : startsStatement kind) :
    endsStatement kind = true := by
  cases kind <;> first | rfl | cases h

theorem Statements.next_endsStatement {greedy : Bool} {ts rest : List Token} {ss : List Stmt}
    (h : Statements greedy ts ss rest) (hrest : endsStatement (next rest).kind = true) :
    endsStatement (next ts).kind = true := by
  rcases h.startsWith with hstart | hsemicolon | rfl
  · exact endsStatement_of_starts hstart
  · rw [hsemicolon]
    rfl
  · exact hrest

/-- An expression of a statement is read to its end. -/
theorem whole_complete {ts rest : List Token} {e : Expr} (h : Spells ts (.expr .expression e) rest)
    (hg : ¬ TearsCall ts rest) (hrest : endsStatement (next rest).kind = true) :
    expression ts = .ok e rest := by
  unfold endsStatement at hrest
  simp only [Bool.and_eq_true, Bool.not_eq_true', bne_iff_ne] at hrest
  exact expression_complete h ⟨hrest.1, hg⟩ hrest.2

theorem declaration_complete {keyword name : Token} {rest : List Token} {constant : Bool} {n : Nat}
    (hn : name.kind = .identifier) (hequals : (next rest).kind ≠ .equals) :
    declaration n constant (keyword :: name :: rest) =
      .ok (.declare name.text constant none keyword.line) rest := by
  show Becomes (declaration n constant) _ (pure _) rest
  refine .peek_bind (.advance_bind (.bind (identifier_apply hn) (.peekKind_bind ?_)))
  rw [if_neg hequals]
  rfl

theorem declarationAs_complete {keyword name t : Token} {ts rest : List Token} {constant : Bool}
    {e : Expr} {n : Nat} (hn : name.kind = .identifier) (ht : t.kind = .equals)
    (he : expression ts = .ok e rest) (hlen : ts.length ≤ n) :
    declaration n constant (keyword :: name :: t :: ts) =
      .ok (.declare name.text constant (some e) keyword.line) rest := by
  show Becomes (declaration n constant) _ (pure _) rest
  refine .peek_bind (.advance_bind (.bind (identifier_apply hn) (.peekKind_bind ?_)))
  rw [next_cons, if_pos ht]
  refine .advance_bind (.bind ?_ rfl)
  rw [expressionAt_eq hlen]
  exact he

theorem block_complete {opener closer : Token} {mid rest : List Token} {body : List Stmt} {n : Nat}
    (ho : opener.kind = .leftBrace)
    (hbody : statements statement endsBlock n mid = .ok body (closer :: rest))
    (hc : closer.kind = .rightBrace) : block n statement (opener :: mid) = .ok body rest := by
  show Becomes (block n statement) _ (pure body) rest
  refine .bind (expect_of_kind _ ho) ?_
  show within .curly opener.line _ mid = .ok body rest
  refine within_eq_ok_iff.2 ?_
  show Becomes _ mid (pure body) rest
  exact .bind hbody (.bind (close_apply hc) rfl)

theorem function_complete {keyword name opener : Token} {ts us rest : List Token} {n : Nat}
    {params : List String} {body : List Stmt} (hn : name.kind = .identifier)
    (ho : opener.kind = .leftParen)
    (hparams : commaList identifier .round opener.line n ts = .ok params us)
    (hbody : block n statement us = .ok body rest) :
    function n statement (keyword :: name :: opener :: ts) =
      .ok (.function name.text params body keyword.line) rest := by
  show Becomes (function n statement) _ (pure _) rest
  refine .peek_bind (.advance_bind (.bind (identifier_apply hn) (.bind (expect_of_kind _ ho) ?_)))
  exact .bind (within_eq_ok_iff.2 hparams) (.bind hbody rfl)

section Statements

variable {ends : TokenKind → Bool} {ts rest : List Token} {n : Nat}

theorem dropSemicolons_of_ne (h : (next ts).kind ≠ .semicolon) :
    ts.dropWhile (·.kind == .semicolon) = ts := by
  cases ts with
  | nil => rfl
  | cons t ts =>
    rw [next_cons] at h
    rw [List.dropWhile_cons, if_neg (by simpa using h)]

theorem statements_stop (hrest : ends (next rest).kind = true)
    (hsemicolon : (next rest).kind ≠ .semicolon) :
    statements statement ends n rest = .ok [] rest := by
  cases n with
  | zero => rfl
  | succ n =>
    show Becomes (statements statement ends (n + 1)) rest (pure []) rest
    apply Becomes.skipSemicolons_bind
    rw [dropSemicolons_of_ne hsemicolon]
    apply Becomes.peekKind_bind
    rw [if_pos hrest]
    rfl

theorem statements_semicolon {t : Token} (ht : t.kind = .semicolon) :
    statements statement ends (n + 1) (t :: ts) = statements statement ends (n + 1) ts := by
  have hdrop : (t :: ts).dropWhile (·.kind == .semicolon) = ts.dropWhile (·.kind == .semicolon) := by
    rw [List.dropWhile_cons, if_pos (by simpa using ht)]
  show Becomes (statements statement ends (n + 1)) (t :: ts) _ ts
  apply Becomes.skipSemicolons_bind
  rw [hdrop]
  rfl

theorem statements_cons {mid : List Token} {s : Stmt} {ss : List Stmt}
    (hends : ends (next ts).kind = false) (hsemicolon : (next ts).kind ≠ .semicolon)
    (hs : statement ts = .ok s mid) (hss : statements statement ends n mid = .ok ss rest) :
    statements statement ends (n + 1) ts = .ok (s :: ss) rest := by
  show Becomes (statements statement ends (n + 1)) ts (pure (s :: ss)) rest
  apply Becomes.skipSemicolons_bind
  rw [dropSemicolons_of_ne hsemicolon]
  apply Becomes.peekKind_bind
  rw [hends]
  exact .bind hs (.bind hss rfl)

mutual

theorem Statement.complete {ts rest : List Token} {s : Stmt} (h : Statement true ts s rest)
    (hrest : endsStatement (next rest).kind = true) : statement ts = .ok s rest := by
  rw [statement_eq]
  show Becomes (statementWith ts.length statement) ts (pure s) rest
  match h with
  | @Statement.declare _ keyword name rest constant hk hn =>
    have hequals : (next rest).kind ≠ .equals := by
      intro h
      rw [h] at hrest
      cases hrest
    apply Becomes.peek_bind
    rw [next_cons, hk]
    cases constant with
    | false => exact declaration_complete hn hequals
    | true => exact declaration_complete hn hequals
  | @Statement.declareAs _ keyword name t ts rest constant e hk hn ht he hg =>
    have hread := whole_complete he (hg rfl) hrest
    have hlen : ts.length ≤ (keyword :: name :: t :: ts).length := by
      simp only [List.length_cons]
      omega
    apply Becomes.peek_bind
    rw [next_cons, hk]
    cases constant with
    | false => exact declarationAs_complete hn ht hread hlen
    | true => exact declarationAs_complete hn ht hread hlen
  | @Statement.function _ keyword name opener closer opener' closer' ts mid rest params body hk hn ho
      hp hc ho' hb hc' =>
    have hle := hp.detached.suffix.length_le
    simp only [List.length_cons] at hle
    have hends (kind : TokenKind) (h : endsBlock kind = true) :
        kind = .rightBrace ∨ kind = .eof := by
      simpa [endsBlock] using h
    have hclose : endsBlock (next (closer' :: rest)).kind = true := by
      rw [next_cons, hc']
      rfl
    have hlen : ts.length ≤ (keyword :: name :: opener :: ts).length := by
      simp only [List.length_cons]
      omega
    have hbody := hb.complete hends hclose (n := (keyword :: name :: opener :: ts).length)
      (by simp only [List.length_cons]; omega)
    apply Becomes.peek_bind
    rw [next_cons, hk]
    exact function_complete hn ho (parameters_complete hp hc _ hlen) (block_complete ho' hbody hc')
  | @Statement.expr _ ts rest e he hg =>
    have hread := whole_complete he (hg rfl) hrest
    have hstart := he.startsWith.1
    apply Becomes.peek_bind
    split
    · next hk => exact absurd hk (ne_of_starts hstart rfl)
    · next hk => exact absurd hk (ne_of_starts hstart rfl)
    · next hk => exact absurd hk (ne_of_starts hstart rfl)
    · refine .bind ?_ rfl
      rw [expressionAt_eq (Nat.le_refl _)]
      exact hread

theorem Statements.complete {ends : TokenKind → Bool}
    (hends : ∀ kind, ends kind = true → kind = .rightBrace ∨ kind = .eof) {ts rest : List Token}
    {ss : List Stmt} (h : Statements true ts ss rest) (hrest : ends (next rest).kind = true)
    {n : Nat} (hlen : ts.length ≤ n) : statements statement ends n ts = .ok ss rest := by
  have hafter : endsStatement (next rest).kind = true := by
    rcases hends _ hrest with hk | hk
    · rw [hk]
      rfl
    · rw [hk]
      rfl
  match h with
  | .nil =>
    refine statements_stop hrest fun hk => ?_
    rcases hends _ hrest with hk' | hk'
    · rw [hk] at hk'
      cases hk'
    · rw [hk] at hk'
      cases hk'
  | .semicolon ht h =>
    simp only [List.length_cons] at hlen
    obtain ⟨n, rfl⟩ : ∃ m, n = m + 1 := Nat.exists_eq_add_one.2 (by omega)
    rw [statements_semicolon ht]
    exact h.complete hends hrest (by omega)
  | .cons hs hss =>
    have hlt := hs.length_lt
    have hstart := hs.startsWith
    obtain ⟨n, rfl⟩ : ∃ m, n = m + 1 := Nat.exists_eq_add_one.2 (by omega)
    have hgo : ends (next ts).kind = false := by
      refine Bool.eq_false_iff.2 fun h => ?_
      rcases hends _ h with hk | hk
      · exact ne_of_starts hstart rfl hk
      · exact ne_of_starts hstart rfl hk
    have hsemicolon : (next ts).kind ≠ .semicolon := ne_of_starts hstart rfl
    exact statements_cons hgo hsemicolon (hs.complete (hss.next_endsStatement hafter))
      (hss.complete hends hrest (by omega))

end

end Statements

/-- Greedy statements up to the end of the input are read as a program. -/
theorem program_complete {ts rest : List Token} {p : Program} (h : Statements true ts p rest)
    (hend : (next rest).kind = .eof) : program ts = .ok p rest := by
  have hends (kind : TokenKind) (hk : (kind == .eof) = true) : kind = .rightBrace ∨ kind = .eof :=
    .inr (beq_iff_eq.1 hk)
  rw [program_eq]
  exact h.complete hends (beq_iff_eq.2 hend) (Nat.le_refl _)

end ScopeScript.Grammar
