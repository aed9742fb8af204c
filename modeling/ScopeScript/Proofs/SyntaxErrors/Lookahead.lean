import ScopeScript.Proofs.Grammar.Completeness

/-!
# Parsers look one token ahead

What a parser does depends on the tokens that it takes and on the token that stands next when it
stops.  All tokens after that one can be replaced: the parser has the same result or the same error,
and it leaves the tokens that are there now (`Ahead`).

At the end of the input one end token is as good as another, and a list that is used up as good as
an end token: the parser fails with the same error, only that it names the end token that is there
now (`ending`).  An end token is never taken.

    sees_…          what a parser sees of its tokens, construct by construct
    program_ahead   nothing behind the next token changes a program or its syntax error
-/

namespace ScopeScript

namespace ParseError

/-- The error that the same tokens give in front of an end token `t`. -/
def meeting (t : Token) : ParseError → ParseError
  | unexpected expected found => unexpected expected (if found.isEnd then t else found)
  | unclosed bracket line => unclosed bracket line

/-- An error after `read` names the token that stands next, unless it is about a numeral that was
just read. -/
def Blames (e : ParseError) (read rest : List Token) : Prop :=
  match e with
  | unexpected expected found =>
    expected ≠ .numericLiteral ∧ found = Parser.next rest ∨
      expected = .numericLiteral ∧ found ∈ read ∧ found.kind = .number ∧
        Numeral.read? found.text = none
  | unclosed _ _ => True

theorem Blames.mono {e : ParseError} {read read' rest : List Token} (h : e.Blames read rest)
    (hread : ∀ t ∈ read, t ∈ read') : e.Blames read' rest := by
  cases e with
  | unclosed b line => trivial
  | unexpected x found =>
    rcases h with h | ⟨hx, hfound, h⟩
    · exact .inl h
    · exact .inr ⟨hx, hread found hfound, h⟩

theorem isEnd_iff {t : Token} : t.isEnd ↔ t.kind = .eof := beq_iff_eq

/-- Only the end token that stands next can be named. -/
theorem Blames.meeting_next {e : ParseError} {read rest : List Token} (h : e.Blames read rest) :
    e.meeting (Parser.next rest) = e := by
  cases e with
  | unclosed b line => rfl
  | unexpected x found =>
    rcases h with ⟨-, rfl⟩ | ⟨-, -, hk, -⟩
    · simp [meeting]
    · have hend : found.isEnd = false := by simp [Token.isEnd, hk]
      simp [meeting, hend]

end ParseError

namespace Parser

variable {α β : Type}

/-- The same end of a run with other tokens left. -/
def leaving (rest : List Token) :
    EStateM.Result ParseError (List Token) α → EStateM.Result ParseError (List Token) α
  | .ok a _ => .ok a rest
  | .error e _ => .error e rest

/-- The same end of a run with other tokens left, of which the next is named if it is the end. -/
def ending (rest : List Token) :
    EStateM.Result ParseError (List Token) α → EStateM.Result ParseError (List Token) α
  | .ok a _ => .ok a rest
  | .error e _ => .error (e.meeting (next rest)) rest

/-- Of the tokens that `p` leaves on `ts`, it has seen the first one at most. -/
def Ahead (p : Parser α) (ts : List Token) : Prop :=
  ∃ read, ts = read ++ left (p ts) ∧
    ∀ rest, next rest = next (left (p ts)) → p (read ++ rest) = leaving rest (p ts)

/-- Tokens that parsers do not tell apart when they stand next. -/
def LooksLike (t t' : Token) : Prop := t = t' ∨ t.kind = .eof ∧ t'.kind = .eof

theorem LooksLike.refl (t : Token) : LooksLike t t := .inl rfl

theorem LooksLike.kind_eq {t t' : Token} (h : LooksLike t t') : t.kind = t'.kind := by
  rcases h with rfl | ⟨ht, ht'⟩
  · rfl
  · rw [ht, ht']

/-- `p` takes `read` from `ts` and has not seen more of what it leaves than what the next token
looks like. -/
structure Reads (p : Parser α) (ts read : List Token) : Prop where
  split : ts = read ++ left (p ts)
  ne_eof : ∀ t ∈ read, t.kind ≠ .eof
  blames : ∀ e rest, p ts = .error e rest → e.Blames read rest
  ahead : ∀ rest, LooksLike (next rest) (next (left (p ts))) →
    p (read ++ rest) = ending rest (p ts)

def Sees (p : Parser α) (ts : List Token) : Prop := ∃ read, Reads p ts read

namespace Sees

variable {ts : List Token} {p : Parser α}

theorem ahead (h : Sees p ts) : Ahead p ts := by
  obtain ⟨read, hread⟩ := h
  refine ⟨read, hread.split, fun rest hnext => ?_⟩
  rw [hread.ahead rest (hnext ▸ .refl _)]
  cases h : p ts with
  | ok a mid => rfl
  | error e mid =>
    have hblames := hread.blames e mid h
    have hsame : next rest = next mid := by rwa [h] at hnext
    show EStateM.Result.error (e.meeting (next rest)) rest = .error e rest
    rw [hsame, hblames.meeting_next]

/-- What takes tokens has nothing to take at the end. -/
theorem error_at_end (h : Sees p ts) (hc : Consumes p) (hend : (next ts).kind = .eof) :
    ∃ e rest, p ts = .error e rest := by
  cases hp : p ts with
  | error e rest => exact ⟨e, rest, rfl⟩
  | ok a rest =>
    obtain ⟨read, hread⟩ := h
    have hlt := hc ts a rest hp
    have hsplit : ts = read ++ rest := by
      have := hread.split
      rwa [hp] at this
    cases read with
    | nil => simp [hsplit] at hlt
    | cons t read =>
      rw [hsplit] at hend
      exact absurd hend (hread.ne_eof t List.mem_cons_self)

/-! ## Steps -/

theorem pure (a : α) : Sees (Pure.pure a) ts := ⟨[], rfl, nofun, nofun, fun _ _ => rfl⟩

theorem unclosed (b : Bracket) (line : Nat) :
    Sees (throw (.unclosed b line) : Parser α) ts := by
  refine ⟨[], rfl, nofun, fun e rest h => ?_, fun _ _ => rfl⟩
  cases h
  trivial

theorem refuse {x : Expectation} (hx : x ≠ .numericLiteral) : Sees (refuse x : Parser α) ts := by
  refine ⟨[], rfl, nofun, fun e rest h => ?_, fun rest hnext => ?_⟩
  · cases h
    exact .inl ⟨hx, rfl⟩
  · have hnext : LooksLike (next rest) (next ts) := hnext
    rw [List.nil_append, refuse_apply, refuse_apply]
    rcases hnext with hsame | ⟨-, hend⟩
    · simp [ending, ParseError.meeting, hsame]
    · simp [ending, ParseError.meeting, Token.isEnd, hend]

/-- The first parser sees what it takes and then a token that the second one sees too. -/
theorem bind {f : α → Parser β} (hp : Sees p ts) (hf : ∀ a rest, Sees (f a) rest) :
    Sees (p >>= f) ts := by
  obtain ⟨read, hts, hne, hblames, hread⟩ := hp
  cases h : p ts with
  | error e mid =>
    rw [h] at hts hread
    refine ⟨read, by rwa [bind_of_error h], hne, fun e' rest h' => ?_, fun rest hnext => ?_⟩
    · rw [bind_of_error h] at h'
      cases h'
      exact hblames e mid h
    · rw [bind_of_error h] at hnext ⊢
      exact bind_of_error (hread rest hnext)
  | ok a mid =>
    rw [h] at hts hread
    obtain ⟨read', hmid, hne', hblames', hread'⟩ := hf a mid
    refine ⟨read ++ read', ?_, ?_, fun e rest h' => ?_, fun rest hnext => ?_⟩
    · rwa [bind_of_ok h, List.append_assoc, ← hmid]
    · intro t ht
      rcases List.mem_append.1 ht with ht | ht
      · exact hne t ht
      · exact hne' t ht
    · rw [bind_of_ok h] at h'
      exact (hblames' e rest h').mono fun t ht => List.mem_append_right read ht
    · rw [bind_of_ok h] at hnext ⊢
      have hseen : LooksLike (next (read' ++ rest)) (next mid) := by
        cases read' with
        | nil =>
          have hall : mid = left (f a mid) := hmid
          rwa [← hall] at hnext
        | cons t read' =>
          rw [hmid, List.cons_append, List.cons_append, next_cons, next_cons]
          exact .refl t
      rw [List.append_assoc, bind_of_ok (hread _ hseen)]
      exact hread' rest hnext

/-- What a parser makes of the next token may depend on it as a whole, unless it is the end. -/
theorem peek_bind {f : Token → Parser α} (h : Sees (f (next ts)) ts)
    (hend : ∀ t rest, t.kind = .eof → (next ts).kind = .eof → (next rest).kind = .eof →
      f t rest = f (next ts) rest) :
    Sees (peek >>= f) ts := by
  obtain ⟨read, hts, hne, hblames, hread⟩ := h
  refine ⟨read, hts, hne, hblames, fun rest hnext => ?_⟩
  rw [Parser.peek_bind]
  cases read with
  | nil =>
    have hall : ts = left (f (next ts) ts) := hts
    have hnext : LooksLike (next rest) (next ts) := by
      have hnext : LooksLike (next rest) (next (left (f (next ts) ts))) := hnext
      rwa [← hall] at hnext
    rw [List.nil_append]
    rcases hnext with hsame | ⟨hrest, hts'⟩
    · rw [hsame]
      exact hread rest (by rw [← hall, hsame]; exact .refl _)
    · rw [hend (next rest) rest hrest hts' hrest]
      exact hread rest (by rw [← hall]; exact .inr ⟨hrest, hts'⟩)
  | cons t read =>
    have hfirst : next (t :: read ++ rest) = next ts := (congrArg next hts).symm
    rw [hfirst]
    exact hread rest hnext

theorem peekKind_bind {f : TokenKind → Parser α} (h : Sees (f (next ts).kind) ts) :
    Sees (peekKind >>= f) ts :=
  peek_bind (f := fun t => f t.kind) h fun t rest ht hts _ => by rw [ht, hts]

/-- Where a token stands next, `advance` takes it. -/
theorem advance_bind {f : Unit → Parser α} (hk : (next ts).kind ≠ .eof)
    (h : Sees (f ()) ts.tail) : Sees (advance >>= f) ts := by
  cases ts with
  | nil => exact absurd rfl hk
  | cons t ts =>
    obtain ⟨read, hts, hne, hblames, hread⟩ := h
    exact ⟨t :: read, congrArg (t :: ·) hts, List.forall_mem_cons.2 ⟨hk, hne⟩,
      fun e rest he => (hblames e rest he).mono fun _ => List.mem_cons_of_mem t, hread⟩

theorem advance (hk : (next ts).kind ≠ .eof) : Sees advance ts :=
  advance_bind (f := Pure.pure) hk (.pure ())

/-- A numeral that spells no number is taken all the same. -/
theorem advance_throw (hk : (next ts).kind = .number) (hread : Numeral.read? (next ts).text = none) :
    Sees (Parser.advance >>= fun _ =>
      (throw (.unexpected .numericLiteral (next ts)) : Parser α)) ts := by
  cases ts with
  | nil => cases hk
  | cons t ts =>
    have hend : t.isEnd = false := by
      have hk : t.kind = .number := hk
      simp [Token.isEnd, hk]
    have hne : t.kind ≠ .eof := fun heof => by
      rw [next_cons, heof] at hk
      cases hk
    refine ⟨[t], rfl, by simpa using hne, fun e rest h => ?_, fun rest _ => ?_⟩
    · cases h
      exact .inr ⟨rfl, List.mem_cons_self, hk, hread⟩
    · show EStateM.Result.error _ rest = .error (ParseError.meeting _ (.unexpected _ t)) rest
      simp [ParseError.meeting, hend]

theorem next_dropSemicolons (ts : List Token) :
    (next (ts.dropWhile (·.kind == .semicolon))).kind ≠ .semicolon := by
  induction ts with
  | nil => decide
  | cons t ts ih =>
    rw [List.dropWhile_cons]
    split
    · exact ih
    · next hkind => simpa using hkind

theorem skipSemicolons : Sees skipSemicolons ts := by
  have hall : ∀ t ∈ ts.takeWhile (·.kind == .semicolon), (t.kind == .semicolon) = true :=
    List.all_eq_true.1 List.all_takeWhile
  refine ⟨ts.takeWhile (·.kind == .semicolon), List.takeWhile_append_dropWhile.symm,
    fun t ht heof => ?_, nofun, fun rest hnext => ?_⟩
  · have hsemicolon := hall t ht
    simp [heof] at hsemicolon
  · have hstop : (next rest).kind ≠ .semicolon := by
      rw [hnext.kind_eq]
      exact next_dropSemicolons ts
    have hskip : (ts.takeWhile (·.kind == .semicolon) ++ rest).dropWhile (·.kind == .semicolon) =
        rest := by
      rw [List.dropWhile_append_of_pos hall]
      exact Grammar.dropSemicolons_of_ne hstop
    show EStateM.Result.ok () _ = .ok () rest
    rw [hskip]

theorem expect {kind : TokenKind} {x : Expectation} (hk : kind ≠ .eof)
    (hx : x ≠ .numericLiteral) : Sees (expect kind x) ts := by
  refine peek_bind ?_ fun t rest ht hts _ => ?_
  · split
    · next hkind => exact advance_bind (hkind ▸ hk) (.pure _)
    · exact .refuse hx
  · rw [ht, hts, if_neg hk.symm, if_neg hk.symm]

theorem identifier : Sees identifier ts :=
  (expect (by decide) (by decide)).bind fun _ _ => .pure _

theorem close (b : Bracket) (line : Nat) : Sees (close b line) ts := by
  apply peekKind_bind
  split
  · next hkind => exact advance (hkind ▸ closing_ne_eof b)
  · split
    · exact .unclosed _ _
    · exact .refuse nofun

/-- Whether an error is at the end of the input is seen on the next token. -/
theorem within (h : Sees p ts) (b : Bracket) (line : Nat) : Sees (within b line p) ts := by
  obtain ⟨read, hts, hne, hblames, hread⟩ := h
  have hleft : left (Parser.within b line p ts) = left (p ts) := by
    rw [within_apply]
    cases p ts with
    | ok a rest => rfl
    | error e rest =>
      cases e with
      | unclosed b' line' => rfl
      | unexpected x found =>
        dsimp only
        split <;> rfl
  refine ⟨read, by rwa [hleft], hne, fun e rest he => ?_, fun rest hnext => ?_⟩
  · rw [within_apply] at he
    cases h : p ts with
    | ok a mid =>
      rw [h] at he
      cases he
    | error e' mid =>
      have hblames' := hblames e' mid h
      rw [h] at he
      cases e' with
      | unclosed b' line' =>
        cases he
        trivial
      | unexpected x found =>
        dsimp only at he
        split at he
        · cases he
          trivial
        · cases he
          exact hblames'
  · rw [hleft] at hnext
    rw [within_apply, within_apply, hread rest hnext]
    cases h : p ts with
    | ok a mid => rfl
    | error e mid =>
      have hseen : (next rest).kind = (next mid).kind := by
        rw [h] at hnext
        exact hnext.kind_eq
      cases e with
      | unclosed b' line' => rfl
      | unexpected x found =>
        by_cases hend : (next mid).kind = .eof
        · simp [ending, ParseError.meeting, hseen, hend]
        · simp [ending, ParseError.meeting, hseen, hend]

end Sees

/-! ## Lists -/

section Lists

variable {ts : List Token} {item : Parser α}

theorem sees_items (hi : ∀ ts, Sees item ts) (b : Bracket) (line n : Nat) :
    Sees (items item b line n) ts := by
  induction n generalizing ts with
  | zero => exact .unclosed _ _
  | succ n ih =>
    apply Sees.peekKind_bind
    split
    · exact .unclosed _ _
    · refine (hi ts).bind fun x rest => .peekKind_bind ?_
      split
      · next hcomma =>
        exact .advance_bind (by simp [hcomma]) (ih.bind fun _ _ => .pure _)
      · split
        · next hclose => exact .advance_bind (hclose ▸ closing_ne_eof b) (.pure _)
        · split
          · exact .unclosed _ _
          · exact .refuse nofun

theorem sees_commaList (hi : ∀ ts, Sees item ts) (b : Bracket) (line n : Nat) :
    Sees (commaList item b line n) ts := by
  apply Sees.peekKind_bind
  split
  · next hclose => exact .advance_bind (hclose ▸ closing_ne_eof b) (.pure _)
  · exact sees_items hi b line n

end Lists

/-! ## Expressions -/

theorem identifier_end {ts : List Token} (hend : (next ts).kind = .eof) :
    identifier ts = .error (.unexpected .identifier (next ts)) ts := by
  have hexpect : expect .identifier .identifier ts =
      .error (.unexpected .identifier (next ts)) ts := by
    rw [expect_apply, if_neg (by simp [hend])]
  exact bind_of_error hexpect

section Levels

variable {inner : Parser Expr} {ts : List Token} (hi : ∀ ts, Sees inner ts)

include hi

theorem sees_group (b : Bracket) (line : Nat) :
    Sees
      (within b line do
        let e ← inner
        close b line
        return e)
      ts :=
  ((hi ts).bind fun _ _ => (Sees.close b line).bind fun _ _ => .pure _).within b line

theorem sees_primary : Sees (primary inner) ts := by
  refine Sees.peek_bind ?_ fun t rest ht hts _ => by simp only [ht, hts]
  split
  · next hk => exact .advance_bind (by simp [hk]) (.pure _)
  · next hk =>
    cases hread : Numeral.read? (next ts).text with
    | some x => exact .advance_bind (by simp [hk]) (.pure _)
    | none => exact .advance_throw hk hread
  · next hk => exact .advance_bind (by simp [hk]) (.pure _)
  · next hk => exact .advance_bind (by simp [hk]) (sees_group hi _ _)
  · exact .refuse nofun

theorem sees_suffixes (n : Nat) (e : Expr) : Sees (suffixes inner n e) ts := by
  induction n generalizing e ts with
  | zero => exact .pure _
  | succ n ih =>
    refine Sees.peek_bind ?_ fun t rest ht hts _ => by simp only [ht, hts]
    split
    · next hk =>
      refine .advance_bind (by simp [hk])
        (.peek_bind (Sees.identifier.bind fun _ _ => ih _) fun t rest _ _ hrest => ?_)
      rw [bind_of_error (identifier_end hrest), bind_of_error (identifier_end hrest)]
    · next hk => exact .advance_bind (by simp [hk]) ((sees_group hi _ _).bind fun _ _ => ih _)
    · next hk =>
      exact .advance_bind (by simp [hk])
        (((sees_commaList hi _ _ _).within _ _).bind fun _ _ => ih _)
    · exact .pure _

theorem sees_operand (n : Nat) : Sees (operand n inner) ts :=
  (sees_primary hi).bind fun _ _ => sees_suffixes hi n _

omit hi in
theorem sees_chain {level : Parser Expr} (hl : ∀ ts, Sees level ts) (accepts : BinaryOp → Bool)
    (n : Nat) (e : Expr) : Sees (chain level accepts n e) ts := by
  induction n generalizing e ts with
  | zero => exact .pure _
  | succ n ih =>
    refine Sees.peek_bind ?_ fun t rest ht hts _ => by simp [operatorOf?, ht, hts]
    split
    · next op hop =>
      split
      · have hk : (next ts).kind ≠ .eof := by
          intro he
          simp [operatorOf?, he] at hop
        exact .advance_bind hk ((hl _).bind fun _ _ => ih _)
      · exact .pure _
    · exact .pure _

theorem sees_product (n : Nat) : Sees (product n inner) ts :=
  (sees_operand hi n).bind fun _ _ => sees_chain (fun _ => sees_operand hi n) _ n _

theorem sees_sum (n : Nat) : Sees (sum n inner) ts :=
  (sees_product hi n).bind fun _ _ => sees_chain (fun _ => sees_product hi n) _ n _

theorem sees_properties (n : Nat) : Sees (properties inner n) ts := by
  induction n generalizing ts with
  | zero => exact .pure _
  | succ n ih =>
    refine Sees.peek_bind ?_ fun t rest ht hts _ => by simp only [ht, hts, or_true, if_true]
    split
    · exact .pure _
    · refine Sees.identifier.bind fun key rest => .peekKind_bind ?_
      split
      · next hcomma => exact .advance_bind (by simp [hcomma]) (ih.bind fun _ _ => .pure _)
      · split
        · exact ih.bind fun _ _ => .pure _
        · refine (Sees.expect (by decide) (by decide)).bind fun _ rest => ?_
          refine (hi rest).bind fun value rest => .peekKind_bind ?_
          split
          · next hcomma => exact .advance_bind (by simp [hcomma]) (ih.bind fun _ _ => .pure _)
          · split
            · exact ih.bind fun _ _ => .pure _
            · exact .refuse nofun

theorem sees_objectLevel (n : Nat) : Sees (objectLevel n inner) ts := by
  refine Sees.peek_bind ?_ fun t rest ht hts _ => by simp only [ht, hts, reduceCtorEq, if_false]
  split
  · next hk =>
    exact .advance_bind (by simp [hk]) (((sees_properties hi n).bind fun _ _ =>
      (Sees.close _ _).bind fun _ _ => .pure _).within _ _)
  · exact sees_sum hi n

theorem sees_assignment (n : Nat) : Sees (assignment n inner) ts := by
  refine (sees_objectLevel hi n).bind fun e rest => .peek_bind ?_ fun t rest' ht hts _ => by
    simp only [ht, hts, reduceCtorEq, if_false]
  split
  · next hk => exact .advance_bind (by simp [hk]) ((hi _).bind fun _ _ => .pure _)
  · exact .pure _

end Levels

theorem sees_expressionAt (n : Nat) (ts : List Token) : Sees (expressionAt n) ts := by
  induction n generalizing ts with
  | zero => exact .refuse nofun
  | succ n ih => exact sees_assignment ih _

/-! ## Statements -/

theorem sees_declaration {ts : List Token} (hk : (next ts).kind ≠ .eof) (n : Nat)
    (constant : Bool) : Sees (declaration n constant) ts := by
  refine .peek_bind (.advance_bind hk (Sees.identifier.bind fun _ rest => .peekKind_bind ?_))
    fun _ _ _ hend => absurd hend hk
  split
  · next hequals =>
    exact .advance_bind (by simp [hequals]) ((sees_expressionAt n _).bind fun _ _ => .pure _)
  · exact .pure _

section Statements

variable {item : Parser Stmt} {ts : List Token} (hi : ∀ ts, Sees item ts)

include hi

theorem sees_statements (ends : TokenKind → Bool) (n : Nat) :
    Sees (statements item ends n) ts := by
  induction n generalizing ts with
  | zero => exact .pure _
  | succ n ih =>
    refine Sees.skipSemicolons.bind fun _ rest => .peekKind_bind ?_
    split
    · exact .pure _
    · exact (hi rest).bind fun _ _ => ih.bind fun _ _ => .pure _

theorem sees_block (n : Nat) : Sees (block n item) ts :=
  (Sees.expect (by decide) (by decide)).bind fun _ _ =>
    ((sees_statements hi _ n).bind fun _ _ => (Sees.close _ _).bind fun _ _ => .pure _).within _ _

theorem sees_function (hk : (next ts).kind ≠ .eof) (n : Nat) : Sees (function n item) ts :=
  .peek_bind (.advance_bind hk (Sees.identifier.bind fun _ _ =>
    (Sees.expect (by decide) (by decide)).bind fun _ _ =>
      ((sees_commaList (fun _ => .identifier) _ _ n).within _ _).bind fun _ _ =>
        (sees_block hi n).bind fun _ _ => .pure _)) fun _ _ _ hend => absurd hend hk

theorem sees_statementWith (n : Nat) : Sees (statementWith n item) ts := by
  refine Sees.peek_bind ?_ fun t rest ht hts hrest => ?_
  split
  · next hk => exact sees_declaration (by simp [hk]) n _
  · next hk => exact sees_declaration (by simp [hk]) n _
  · next hk => exact sees_function hi (by simp [hk]) n
  · exact (sees_expressionAt n ts).bind fun _ _ => .pure _
  · -- at the end no expression is read, so its line is not asked for
    obtain ⟨e, rest', he⟩ :=
      (sees_expressionAt n rest).error_at_end (consumes_expressionAt n) hrest
    simp only [ht, hts]
    rw [bind_of_error he, bind_of_error he]

end Statements

theorem sees_statementAt (n : Nat) (ts : List Token) : Sees (statementAt n) ts := by
  induction n generalizing ts with
  | zero => exact .refuse nofun
  | succ n ih => exact sees_statementWith ih _

/-! ## Entry points -/

/-- A list and a changed one may differ in length, so both are read with a bound for the two. -/
theorem sees_sized {p : Nat → Parser α} (h : ∀ n ts, Sees (p n) ts)
    (hsame : ∀ {m n : Nat} {ts : List Token}, ts.length ≤ m → ts.length ≤ n →
      SameAt ts (p m) (p n)) (ts : List Token) :
    Sees (sized p) ts := by
  obtain ⟨read, hts, hne, hblames, -⟩ := h ts.length ts
  refine ⟨read, hts, hne, hblames, fun rest hnext => ?_⟩
  have hlong : p ts.length ts = p (max ts.length (read ++ rest).length) ts :=
    hsame (Nat.le_refl _) (Nat.le_max_left _ _)
  have hlong' : p (read ++ rest).length (read ++ rest) =
      p (max ts.length (read ++ rest).length) (read ++ rest) :=
    hsame (Nat.le_refl _) (Nat.le_max_right _ _)
  obtain ⟨read', hts', -, -, hread'⟩ := h (max ts.length (read ++ rest).length) ts
  rw [← hlong] at hts' hread'
  obtain rfl : read = read' := List.append_cancel_right (hts.symm.trans hts')
  rw [sized_apply, sized_apply, hlong']
  exact hread' rest hnext

theorem sees_expression (ts : List Token) : Sees expression ts :=
  sees_sized sees_expressionAt expressionAt_same ts

theorem sees_objectLiteral (ts : List Token) : Sees objectLiteral ts :=
  sees_sized (fun n _ => sees_objectLevel (sees_expressionAt n) n)
    (fun hm hn => objectLevel_same (consumes_expressionAt _) (suffix_expressionAt _)
      (fun _ hus => expressionAt_same (by omega) (by omega)) (Nat.le_refl _) hm hn) ts

theorem sees_additive (ts : List Token) : Sees additive ts :=
  sees_sized (fun n _ => sees_sum (sees_expressionAt n) n)
    (fun hm hn => sum_same (consumes_expressionAt _) (suffix_expressionAt _)
      (fun _ hus => expressionAt_same (by omega) (by omega)) (Nat.le_refl _) hm hn) ts

theorem sees_multiplicative (ts : List Token) : Sees multiplicative ts :=
  sees_sized (fun n _ => sees_product (sees_expressionAt n) n)
    (fun hm hn => product_same (consumes_expressionAt _) (suffix_expressionAt _)
      (fun _ hus => expressionAt_same (by omega) (by omega)) (Nat.le_refl _) hm hn) ts

theorem sees_statement (ts : List Token) : Sees statement ts :=
  sees_sized sees_statementAt statementAt_same ts

theorem sees_statementList (ts : List Token) : Sees statementList ts :=
  sees_sized (fun n _ => sees_block (sees_statementAt n) n)
    (fun hm hn => block_same (consumes_statementAt _)
      (fun _ hus => statementAt_same (by omega) (by omega)) (Nat.le_refl _) hm hn) ts

theorem sees_program (ts : List Token) : Sees program ts :=
  sees_sized (fun n _ => sees_statements (sees_statementAt n) (· == .eof) n)
    (fun hm hn => statements_same (consumes_statementAt _) rfl
      (fun _ hus => statementAt_same (by omega) (by omega)) hm hn) ts

theorem program_ahead (ts : List Token) : Ahead program ts := (sees_program ts).ahead

end Parser

end ScopeScript
