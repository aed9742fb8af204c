import ScopeScript.Proofs.Grammar.Exact
import ScopeScript.Proofs.SyntaxErrors.Lookahead

/-!
# The end of the input

Tokens end at an end token or where the list does, and parsers do not tell the two apart.  What
stands behind an end token is never read.

    p ts = ok a rest      p (ts ++ z :: us) = ok a (rest ++ z :: us)
    p ts = error e rest   p (ts ++ z :: us) = error (e.meeting z) (rest ++ z :: us)

for tokens `ts` without an end token, an end token `z` and any tokens `us`: the errors are the same
but for the end token that an error at the end of the input names.  Without `z` that token is on
line 0.
-/

namespace ScopeScript

/-- End tokens are shown without their texts. -/
theorem ParseError.describe_meeting {z : Token} (hz : z.kind = .eof) (e : ParseError) :
    (e.meeting z).describe = e.describe := by
  cases e with
  | unclosed b line => rfl
  | unexpected x found =>
    by_cases hend : found.isEnd
    · have hfound : found.kind = .eof := isEnd_iff.1 hend
      simp [meeting, describe, hend, Token.shown, hz, hfound]
    · simp [meeting, hend]

namespace Parser

variable {α : Type}

/-- The same end of a run with an end token `z` and `us` behind what is left. -/
def extending (z : Token) (us : List Token) :
    EStateM.Result ParseError (List Token) α → EStateM.Result ParseError (List Token) α
  | .ok a rest => .ok a (rest ++ z :: us)
  | .error e rest => .error (e.meeting z) (rest ++ z :: us)

/-- `p` takes tokens off the front up to an end token at most, whether it is there or not. -/
structure EndsUniformly (p : Parser α) : Prop where
  takes : ∀ ts, ∃ read, ts = read ++ left (p ts) ∧ ∀ t ∈ read, t.kind ≠ .eof
  agrees : ∀ {ts z}, (∀ t ∈ ts, t.kind ≠ .eof) → z.kind = .eof → ∀ us,
    p (ts ++ z :: us) = extending z us (p ts)
  unnumbered : ∀ {ts x found rest}, (∀ t ∈ ts, t.kind ≠ .eof) →
    p ts = .error (.unexpected x found) rest → found.kind = .eof → found = .endAt 0

section Uniform

variable {p : Parser α}

/-- At the end of a list without an end token the next token is one on line 0. -/
theorem next_eq_endAt {ts : List Token} (hts : ∀ t ∈ ts, t.kind ≠ .eof)
    (hend : (next ts).kind = .eof) : next ts = .endAt 0 := by
  cases ts with
  | nil => rfl
  | cons t ts => exact absurd hend (hts t List.mem_cons_self)

theorem left_ne_eof {ts : List Token} (hts : ∀ t ∈ ts, t.kind ≠ .eof) {read : List Token}
    (h : Reads p ts read) : ∀ t ∈ left (p ts), t.kind ≠ .eof := by
  intro t ht
  refine hts t ?_
  rw [h.split]
  exact List.mem_append_right read ht

/-- An error is the same in front of an end token and in front of that and what is left. -/
theorem meeting_extended {e : ParseError} {read rest : List Token} (h : e.Blames read rest)
    (hrest : ∀ t ∈ rest, t.kind ≠ .eof) (z : Token) (us : List Token) :
    e.meeting (next (rest ++ z :: us)) = e.meeting z := by
  cases e with
  | unclosed b line => rfl
  | unexpected x found =>
    cases rest with
    | nil => rfl
    | cons t rest =>
      have hfound : found.kind ≠ .eof := by
        rcases h with ⟨-, hfound⟩ | ⟨-, -, hk, -⟩
        · exact hfound ▸ hrest t List.mem_cons_self
        · simp [hk]
      have hend : found.isEnd = false := by simpa [Token.isEnd] using hfound
      simp [ParseError.meeting, hend]

theorem EndsUniformly.of_sees (h : ∀ ts, Sees p ts) : EndsUniformly p where
  takes ts := by
    obtain ⟨read, hread⟩ := h ts
    exact ⟨read, hread.split, hread.ne_eof⟩
  agrees {ts z} hts hz us := by
    obtain ⟨read, hread⟩ := h ts
    have hleft := left_ne_eof hts hread
    have hlooks : LooksLike (next (left (p ts) ++ z :: us)) (next (left (p ts))) := by
      cases left (p ts) with
      | nil => exact .inr ⟨hz, rfl⟩
      | cons t rest => exact .refl t
    have hrun := hread.ahead _ hlooks
    rw [← List.append_assoc, ← hread.split] at hrun
    rw [hrun]
    cases hp : p ts with
    | ok a rest => rfl
    | error e rest =>
      rw [hp] at hleft
      have hmeeting := meeting_extended (hread.blames e rest hp) hleft z us
      exact congrArg (EStateM.Result.error · (rest ++ z :: us)) hmeeting
  unnumbered {ts x found rest} hts hp hend := by
    obtain ⟨read, hread⟩ := h ts
    have hleft := left_ne_eof hts hread
    rw [hp] at hleft
    rcases hread.blames _ rest hp with ⟨-, rfl⟩ | ⟨-, -, hk, -⟩
    · exact next_eq_endAt hleft hend
    · rw [hend] at hk
      cases hk

end Uniform

end Parser

/-! ## Entry points -/

section Programs

variable {ts : List Token} {z : Token}

theorem Program.ofTokens_extended (hts : ∀ t ∈ ts, t.kind ≠ .eof) (hz : z.kind = .eof)
    (us : List Token) :
    Program.ofTokens (ts ++ z :: us) = (Program.ofTokens ts).mapError (·.meeting z) := by
  have hagrees := (Parser.EndsUniformly.of_sees Parser.sees_program).agrees hts hz us
  unfold Program.ofTokens EStateM.run
  rw [hagrees]
  cases Parser.program ts <;> rfl

/-- All parsers treat an end token as the end of the list: nothing behind it is read, and without it
only an error that names it has another line. -/
theorem Program.ends_uniformly (hts : ∀ t ∈ ts, t.kind ≠ .eof) (hz : z.kind = .eof)
    (us : List Token) :
    Program.ofTokens (ts ++ z :: us) = Program.ofTokens (ts ++ [z]) ∧
      Program.ofTokens (ts ++ [z]) = (Program.ofTokens ts).mapError (·.meeting z) ∧
      (∀ e : ParseError, (e.meeting z).describe = e.describe) ∧
      (∀ x found, Program.ofTokens ts = .error (.unexpected x found) → found.kind = .eof →
        found = .endAt 0) ∧
      Parser.EndsUniformly Parser.program ∧ Parser.EndsUniformly Parser.statement ∧
      Parser.EndsUniformly Parser.expression ∧ Parser.EndsUniformly Parser.objectLiteral ∧
      Parser.EndsUniformly Parser.additive ∧ Parser.EndsUniformly Parser.multiplicative ∧
      Parser.EndsUniformly Parser.statementList := by
  have hprogram := Parser.EndsUniformly.of_sees Parser.sees_program
  have hend := Program.ofTokens_extended hts hz []
  refine ⟨?_, hend, ParseError.describe_meeting hz, fun x found h hfound => ?_, hprogram,
    .of_sees Parser.sees_statement, .of_sees Parser.sees_expression,
    .of_sees Parser.sees_objectLiteral, .of_sees Parser.sees_additive,
    .of_sees Parser.sees_multiplicative, .of_sees Parser.sees_statementList⟩
  · rw [hend]
    exact Program.ofTokens_extended hts hz us
  · obtain ⟨rest, hp⟩ := Grammar.ofTokens_eq_error_iff.1 h
    exact hprogram.unnumbered hts hp hfound

/-- A declaration that goes on behind the end of the input. -/
theorem openDeclaration_ends_uniformly :
    let ts : List Token := [⟨.letKeyword, "let", 1⟩, ⟨.identifier, "a", 1⟩, ⟨.equals, "=", 2⟩]
    let z := Token.endAt 3
    let us : List Token := [⟨.number, "1", 4⟩]
    (∀ t ∈ ts, t.kind ≠ .eof) ∧ z.kind = .eof ∧
      Program.ofTokens ts = .error (.unexpected .expression (.endAt 0)) ∧
      Program.ofTokens (ts ++ z :: us) = .error (.unexpected .expression z) ∧
      Program.ofTokens (ts ++ z :: us) = Program.ofTokens (ts ++ [z]) ∧
      Program.ofTokens (ts ++ [z]) = (Program.ofTokens ts).mapError (·.meeting z) := by
  intro ts z us
  have hts : ∀ t ∈ ts, t.kind ≠ .eof := by decide
  have hz : z.kind = .eof := rfl
  obtain ⟨hbehind, hend, -⟩ := Program.ends_uniformly hts hz us
  exact ⟨hts, hz, rfl, rfl, hbehind, hend⟩

end Programs

end ScopeScript
