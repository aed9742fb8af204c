import ScopeScript.Proofs.Layout.Parsing
import ScopeScript.Proofs.SyntaxErrors.Constructs
import ScopeScript.Proofs.SyntaxErrors.Lookahead
import ScopeScript.Proofs.Token.Numbers
import ScopeScript.Script

/-!
# Syntax errors of programs

A syntax error names the token at which the parser stopped.  At the end of the input it names the
innermost open bracket instead, if one is open.  No program starts with the tokens up to the named
one, but the tokens before it can be completed to a program: the error is at the earliest token.

    Program.syntaxError_reported   what an error says
    Program.syntaxError_earliest   where it is
-/

namespace ScopeScript

/-! ## The place of an error -/

theorem Token.Legal.ne_eof {t : Token} (h : t.Legal) : t.kind ≠ .eof := by
  intro heof
  simp [Token.Legal, heof] at h

/-- Tokens with one end token, split where the end token is next. -/
theorem split_at_end {us read following : List Token} {last t : Token}
    (hus : ∀ u ∈ us, u.kind ≠ .eof) (hread : ∀ u ∈ read, u.kind ≠ .eof) (ht : t.kind = .eof)
    (hlast : last.kind = .eof) (h : us ++ [last] = read ++ t :: following) :
    read = us ∧ t = last ∧ following = [] := by
  have hnext : (Parser.next [last]).kind = .eof := hlast
  have hnext' : (Parser.next (t :: following)).kind = .eof := ht
  have hus' := Grammar.beforeEnd_append hus hnext
  have hread' := Grammar.beforeEnd_append hread hnext'
  rw [h, hread'] at hus'
  subst hus'
  have hrest := List.append_cancel_left h
  cases hrest
  exact ⟨rfl, rfl, rfl⟩

namespace Grammar

open ScopeScript.Parser

/-- An error in tokens with an end token stands at one of them. -/
theorem program_broken {us : List Token} {last : Token} (hlast : last.kind = .eof)
    (hread : Readable (us ++ [last])) {e : ParseError} {rest : List Token}
    (h : program (us ++ [last]) = .error e rest) :
    ∃ read t following stack, us ++ [last] = read ++ t :: following ∧ rest = t :: following ∧
      (∀ u ∈ read, u.kind ≠ .eof) ∧ openBrackets [] read = stack ∧ Reported none stack e t ∧
      Completable SomeStatements read := by
  obtain ⟨read, stack, hts, hne, hstack, hr, hcomplete⟩ := breaks_program _ hread e rest h
  cases rest with
  | nil =>
    have hmem : last ∈ read := by
      rw [List.append_nil] at hts
      rw [← hts]
      simp
    exact absurd hlast (hne last hmem)
  | cons t following =>
    refine ⟨read, t, following, stack, hts, rfl, hne, ?_, hr, hcomplete⟩
    rw [hstack, List.append_nil]

/-- What can be completed to statements can be completed to a program. -/
theorem Completable.program {read : List Token} (hread : ∀ t ∈ read, t.kind ≠ .eof)
    (h : Completable SomeStatements read) :
    ∃ us : List Token, (∀ t ∈ us, t.Legal) ∧ ∀ last : Token, last.kind = .eof →
      ∃ p, Program.ofTokens (read ++ us ++ [last]) = .ok p := by
  obtain ⟨us, hus, hP⟩ := h
  obtain ⟨p, hp⟩ := hP []
  rw [List.append_nil] at hp
  obtain ⟨q, hq⟩ := hp.exists_greedy (by decide)
  have hne : ∀ t ∈ read ++ us, t.kind ≠ .eof := by
    intro t ht
    rcases List.mem_append.1 ht with ht | ht
    · exact hread t ht
    · exact (hus t ht).ne_eof
  refine ⟨us, hus, fun last hlast => ⟨q, ?_⟩⟩
  have hnext : (next [last]).kind = .eof := hlast
  rwa [ofTokens_eq_ok_iff_spelled, beforeEnd_append hne hnext]

/-- Nothing behind the token at which a program fails changes the error. -/
theorem program_error_ahead {read following : List Token} {t : Token} {e : ParseError}
    (h : program (read ++ t :: following) = .error e (t :: following)) (more : List Token) :
    Program.ofTokens (read ++ t :: more) = .error e := by
  obtain ⟨read', hts, hahead⟩ := program_ahead (read ++ t :: following)
  rw [h] at hts hahead
  obtain rfl : read = read' := List.append_cancel_right hts
  exact ofTokens_eq_error_iff.2 ⟨t :: more, hahead (t :: more) rfl⟩

end Grammar

/-! ## What an error says -/

/-- Tokens with one end token, whose numbers can be read, fail with an error that names the token at
which the parser stopped.  If this is the end token then the error names the innermost bracket that
is open there, and the end of the input only if there is none. -/
theorem Program.syntaxError_reported {us : List Token} {last : Token}
    (hus : ∀ t ∈ us, t.kind ≠ .eof) (hlast : last.kind = .eof)
    (hread : ∀ t ∈ us, t.kind = .number → (Numeral.read? t.text).isSome) {e : ParseError}
    {rest : List Token} (h : Parser.program (us ++ [last]) = .error e rest) :
    ∃ read t following, us ++ [last] = read ++ t :: following ∧ rest = t :: following ∧
      (t.kind ≠ .eof ∧ (∃ x, e = .unexpected x t) ∨
        t = last ∧ following = [] ∧
          (openBrackets [] (us ++ [last]) = [] ∧ last.shown = "end of input" ∧
              (∃ x, e = .unexpected x last) ∨
            ∃ b line outer, openBrackets [] (us ++ [last]) = (b, line) :: outer ∧
              e = .unclosed b line)) := by
  have hreadable : Grammar.Readable (us ++ [last]) := by
    intro t ht
    rcases List.mem_append.1 ht with ht | ht
    · exact hread t ht
    · obtain rfl := List.mem_singleton.1 ht
      simp [hlast]
  obtain ⟨read, t, following, stack, hts, hrest, hne, hstack, hr, -⟩ :=
    Grammar.program_broken hlast hreadable h
  refine ⟨read, t, following, hts, hrest, ?_⟩
  by_cases ht : t.kind = .eof
  · obtain ⟨rfl, rfl, rfl⟩ := split_at_end hus hne ht hlast hts
    have hopen : openBrackets [] (read ++ [t]) = stack := by
      simp [hstack, track, ht]
    refine .inr ⟨rfl, rfl, ?_⟩
    rw [hopen]
    cases hr with
    | unexpected hempty => exact .inl ⟨hempty ht, by simp [Token.shown, ht], _, rfl⟩
    | unclosed _ => exact .inr ⟨_, _, _, rfl, rfl⟩
    | group _ hg => cases hg
  · cases hr with
    | unexpected _ => exact .inl ⟨ht, _, rfl⟩
    | unclosed hend => exact absurd hend ht
    | group hend _ => exact absurd hend ht

/-- The tokens of a call whose object literal is never closed.  Its last pair of brackets is closed
before the input ends. -/
def openCall : List Token :=
  [⟨.identifier, "f", 1⟩, ⟨.leftParen, "(", 1⟩, ⟨.leftBrace, "\x7b", 2⟩, ⟨.identifier, "a", 2⟩,
    ⟨.colon, ":", 2⟩, ⟨.leftParen, "(", 3⟩, ⟨.identifier, "b", 3⟩, ⟨.rightParen, ")", 3⟩]

theorem openCall_reported :
    let last := Token.endAt 4
    let e := ParseError.unclosed .curly 2
    Parser.program (openCall ++ [last]) = .error e [last] ∧
      ∃ read t following, openCall ++ [last] = read ++ t :: following ∧ [last] = t :: following ∧
        (t.kind ≠ .eof ∧ (∃ x, e = .unexpected x t) ∨
          t = last ∧ following = [] ∧
            (openBrackets [] (openCall ++ [last]) = [] ∧ last.shown = "end of input" ∧
                (∃ x, e = .unexpected x last) ∨
              ∃ b line outer, openBrackets [] (openCall ++ [last]) = (b, line) :: outer ∧
                e = .unclosed b line)) := by
  intro last e
  have herror : Parser.program (openCall ++ [last]) = .error e [last] := rfl
  have hus : ∀ t ∈ openCall, t.kind ≠ .eof := by decide
  have hread : ∀ t ∈ openCall, t.kind = .number → (Numeral.read? t.text).isSome := by
    simp [openCall]
  exact ⟨herror, Program.syntaxError_reported hus rfl hread herror⟩

/-! ## Where an error is -/

/-- The tokens of a text end with their one end token, and their numbers can be read. -/
theorem Token.tokensOf_ends {source : String} {ts : List Token} (h : tokensOf source = .ok ts) :
    ∃ us line, ts = us ++ [endAt line] ∧ (∀ t ∈ us, t.kind ≠ .eof) ∧ Grammar.Readable ts := by
  obtain ⟨us, hts, hus, -⟩ := scan_append h (.of_blank (c := ' ') (by decide)) []
  exact ⟨us, _, hts, hus, scan_readable h⟩

/-- A text can go on with any tokens that texts can have. -/
theorem Token.tokensOf_going_on {source : String} {us : List Token} {line : Nat}
    (h : tokensOf source = .ok (us ++ [endAt line])) (hus : ∀ t ∈ us, t.kind ≠ .eof)
    {more : List Token} (hmore : ∀ t ∈ more, t.Legal) :
    ∃ more' line', tokensOf (source ++ (" " ++ spaced more)) = .ok (us ++ more' ++ [endAt line']) ∧
      more'.map unlined = more.map unlined := by
  obtain ⟨us', hus', hne, hscan⟩ :=
    scan_append h (.of_blank (c := ' ') (by decide)) (spaced more).toList
  obtain ⟨rfl, -, -⟩ := split_at_end hus hne rfl rfl hus'
  obtain ⟨more', line', hread, hmap⟩ := scan_spaced hmore (1 + source.toList.count '\n')
  refine ⟨more', line', ?_, hmap⟩
  have htext : (source ++ (" " ++ spaced more)).toList =
      source.toList ++ ' ' :: (spaced more).toList := by
    simp
  unfold tokensOf
  rw [htext, hscan, scan_space, hread, List.append_assoc]
  rfl

/-- Whether tokens are a program does not depend on their lines. -/
theorem Program.exists_ok_of_unlined {ts us : List Token}
    (h : ts.map Token.unlined = us.map Token.unlined) {p : Program}
    (hp : Program.ofTokens us = .ok p) : ∃ q, Program.ofTokens ts = .ok q := by
  have hsame := Program.ofTokens_unlined h
  rw [hp] at hsame
  cases hq : Program.ofTokens ts with
  | ok q => exact ⟨q, rfl⟩
  | error e =>
    rw [hq] at hsame
    cases hsame

/-- The parser stops at the first token with which no program goes on, and nothing that follows
changes that.  If this is the end of the input then a longer text is a program. -/
theorem Program.syntaxError_earliest {source : String} {ts : List Token}
    (hts : Token.tokensOf source = .ok ts) {e : ParseError} {rest : List Token}
    (h : Parser.program ts = .error e rest) :
    ∃ read t following, ts = read ++ t :: following ∧ rest = t :: following ∧
      (t.kind ≠ .eof → (∃ x, e = .unexpected x t) ∧
        ∀ more, Program.ofTokens (read ++ t :: more) = .error e) ∧
      (∃ us : List Token, (∀ u ∈ us, u.Legal) ∧ ∀ last : Token, last.kind = .eof →
        ∃ p, Program.ofTokens (read ++ us ++ [last]) = .ok p) ∧
      (t.kind = .eof → following = [] ∧ ∃ more p, Program.ofText (source ++ more) = .ok p) := by
  obtain ⟨all, line, rfl, hall, hreadable⟩ := Token.tokensOf_ends hts
  obtain ⟨read, t, following, stack, hsplit, rfl, hne, -, hr, hcomplete⟩ :=
    Grammar.program_broken rfl hreadable h
  obtain ⟨us, hus, hprogram⟩ := hcomplete.program hne
  refine ⟨read, t, following, hsplit, rfl, fun ht => ⟨?_, ?_⟩, ⟨us, hus, hprogram⟩, fun ht => ?_⟩
  · cases hr with
    | unexpected _ => exact ⟨_, rfl⟩
    | unclosed hend => exact absurd hend ht
    | group hend _ => exact absurd hend ht
  · rw [hsplit] at h
    exact Grammar.program_error_ahead h
  · obtain ⟨rfl, rfl, rfl⟩ := split_at_end hall hne ht rfl hsplit
    obtain ⟨more, line', htokens, hmore⟩ := Token.tokensOf_going_on hts hall hus
    obtain ⟨p, hp⟩ := hprogram (Token.endAt line') rfl
    have hsame : (read ++ more ++ [Token.endAt line']).map Token.unlined =
        (read ++ us ++ [Token.endAt line']).map Token.unlined := by
      simp only [List.map_append, hmore]
    obtain ⟨q, hq⟩ := Program.exists_ok_of_unlined hsame hp
    exact ⟨rfl, " " ++ Token.spaced us, q, Program.ofText_eq_ok htokens hq⟩

/-- A sum without its right operand, on the line after the operator. -/
theorem openSum_earliest :
    let closer : Token := ⟨.rightParen, ")", 2⟩
    let ts : List Token :=
      [⟨.leftParen, "(", 1⟩, ⟨.identifier, "b", 1⟩, ⟨.operator, "+", 1⟩, closer, Token.endAt 2]
    let e := ParseError.unexpected .expression closer
    Token.tokensOf "(b +\n)" = .ok ts ∧ Parser.program ts = .error e [closer, Token.endAt 2] ∧
      ∃ read t following, ts = read ++ t :: following ∧
        [closer, Token.endAt 2] = t :: following ∧
        (t.kind ≠ .eof → (∃ x, e = .unexpected x t) ∧
          ∀ more, Program.ofTokens (read ++ t :: more) = .error e) ∧
        (∃ us : List Token, (∀ u ∈ us, u.Legal) ∧ ∀ last : Token, last.kind = .eof →
          ∃ p, Program.ofTokens (read ++ us ++ [last]) = .ok p) ∧
        (t.kind = .eof → following = [] ∧
          ∃ more p, Program.ofText ("(b +\n)" ++ more) = .ok p) := by
  intro closer ts e
  have htokens : Token.tokensOf "(b +\n)" = .ok ts := by decide +kernel
  have herror : Parser.program ts = .error e [closer, Token.endAt 2] := rfl
  exact ⟨htokens, herror, Program.syntaxError_earliest htokens herror⟩

end ScopeScript
