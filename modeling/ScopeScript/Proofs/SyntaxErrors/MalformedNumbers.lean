import Mathlib.Logic.Relation
import ScopeScript.Proofs.Routines.Brackets
import ScopeScript.Proofs.SyntaxErrors.Lookahead

/-!
# Errors inside of brackets

An error about a token is kept by all brackets around it, and an error that names an open bracket is
at the end of the input.  A number that cannot be read is the one token that is taken before it is
refused: if nothing follows it, the brackets around it see the end of the input, and the innermost
one is named instead of the number.

    ConvertsAtEnd          the errors of a parser, and what becomes of them
    unclosed_only_at_end   all entry points, and all calls on the way to an error
-/

namespace ScopeScript.Parser

variable {α : Type}

/-! ## Through brackets -/

/-- `p` with brackets around it, first to last from the inside. -/
def nested (groups : List (Bracket × Nat)) (p : Parser α) : Parser α :=
  groups.foldl (fun q g => within g.1 g.2 q) p

/-- Brackets keep the error where these tokens are left. -/
def Settled (e : ParseError) (rest : List Token) : Prop :=
  (next rest).kind = .eof → ∃ b line, e = .unclosed b line

section Settled

variable {e : ParseError} {rest ts us : List Token}

theorem settled_of_ne {x : Expectation} {found : Token} (h : (next rest).kind ≠ .eof) :
    Settled (.unexpected x found) rest := fun hend => absurd hend h

theorem within_of_settled {p : Parser α} (hp : p ts = .error e rest) (h : Settled e rest)
    (b : Bracket) (line : Nat) : within b line p ts = .error e rest := by
  rw [within_apply, hp]
  cases e with
  | unclosed b' line' => rfl
  | unexpected x found =>
    have hmore : (next rest).kind ≠ .eof := by
      intro hend
      obtain ⟨b', line', he⟩ := h hend
      cases he
    dsimp only
    rw [if_neg hmore]

/-- Brackets may change the error, but not the tokens that are left. -/
theorem within_of_error {p : Parser α} (hp : p ts = .error e rest) (b : Bracket) (line : Nat) :
    ∃ e', within b line p ts = .error e' rest ∧ (Settled e rest → e' = e) := by
  by_cases h : Settled e rest
  · exact ⟨e, within_of_settled hp h b line, fun _ => rfl⟩
  · rw [within_apply, hp]
    cases e with
    | unclosed b' line' => exact ⟨_, rfl, fun _ => rfl⟩
    | unexpected x found =>
      dsimp only
      split
      · exact ⟨_, rfl, fun h' => absurd h' h⟩
      · exact ⟨_, rfl, fun _ => rfl⟩

theorem nested_of_settled {p : Parser α} (hp : p ts = .error e rest) (h : Settled e rest)
    (groups : List (Bracket × Nat)) : nested groups p ts = .error e rest := by
  induction groups generalizing p with
  | nil => exact hp
  | cons g groups ih => exact ih (within_of_settled hp h g.1 g.2)

/-- At the end of the input, brackets keep no error that names a token. -/
theorem nested_at_end {p : Parser α} {x : Expectation} {found : Token}
    (hp : p ts = .error (.unexpected x found) rest) (hend : (next rest).kind = .eof)
    (g : Bracket × Nat) (groups : List (Bracket × Nat)) :
    nested (g :: groups) p ts = .error (.unclosed g.1 g.2) rest := by
  have hfirst : within g.1 g.2 p ts = .error (.unclosed g.1 g.2) rest := by
    rw [within_apply, hp]
    dsimp only
    rw [if_pos hend]
  exact nested_of_settled hfirst (fun _ => ⟨_, _, rfl⟩) groups

/-- If a call fails then the steps fail with the same tokens left. -/
theorem Steps.error_of_call {c : Parsers} (s : Steps α) {r : Routine}
    (hcall : (r, us) ∈ s.calls c ts) (herror : c r us = .error e rest) :
    ∃ e', s.parser c ts = .error e' rest ∧ (Settled e rest → e' = e) := by
  induction s generalizing ts with
  | act p => cases hcall
  | call r' =>
    cases List.mem_singleton.1 hcall
    exact ⟨e, herror, fun _ => rfl⟩
  | within b line s ih =>
    obtain ⟨e', he', hkept⟩ := ih hcall
    obtain ⟨e'', he'', hkept'⟩ := within_of_error he' b line
    refine ⟨e'', he'', fun h => ?_⟩
    obtain rfl := hkept h
    exact hkept' h
  | bind s f ihs ihf =>
    rcases mem_calls_bind.1 hcall with hcall | ⟨a, mid, hrun, hcall⟩
    · obtain ⟨e', he', hkept⟩ := ihs hcall
      exact ⟨e', bind_of_error he', hkept⟩
    · obtain ⟨e', he', hkept⟩ := ihf a hcall
      exact ⟨e', (bind_of_ok hrun).trans he', hkept⟩

/-- So do all calls on the way. -/
theorem error_of_calls {a b : Routine × List Token} (hcalls : Relation.ReflTransGen Calls a b)
    (herror : b.1.parser b.2 = .error e rest) :
    ∃ e', a.1.parser a.2 = .error e' rest ∧ (Settled e rest → e' = e) := by
  induction hcalls using Relation.ReflTransGen.head_induction_on with
  | refl => exact ⟨e, herror, fun _ => rfl⟩
  | @head a _ hcall _ ih =>
    obtain ⟨e', he', hkept⟩ := ih
    obtain ⟨e'', he'', hkept'⟩ := a.1.steps.error_of_call hcall he'
    refine ⟨e'', (parser_eq a.1 a.2).trans he'', fun h => ?_⟩
    obtain rfl := hkept h
    exact hkept' h

end Settled

theorem calls_suffix {a b : Routine × List Token} (h : Relation.ReflTransGen Calls a b) :
    b.2 <:+ a.2 := by
  induction h with
  | refl => exact List.suffix_refl _
  | tail _ hcall ih => exact (calls_descend hcall).1.trans ih

/-! ## Numbers that cannot be read -/

theorem not_readable_of_malformed {t : Token} (ht : t.Malformed) {ts : List Token} (hmem : t ∈ ts) :
    ¬ Grammar.Readable ts := by
  intro hread
  have hsome := hread t hmem ht.1
  rw [ht.2] at hsome
  cases hsome

/-- Nothing is taken behind a number that cannot be read. -/
theorem Cause.of_malformed {before more rest : List Token} {t : Token} {e : ParseError}
    (h : Cause (before ++ t :: more) rest e) (ht : t.Malformed) :
    more = [] ∧ e = .unexpected .numericLiteral t := by
  cases h with
  | refused _ hread => exact absurd hread (not_readable_of_malformed ht (by simp))
  | @malformed before' u hread hbefore _ =>
    rcases List.eq_nil_or_concat more with rfl | ⟨more', v, rfl⟩
    · obtain ⟨-, hlast⟩ := List.append_inj' hread rfl
      cases hlast
      exact ⟨rfl, rfl⟩
    · have hassoc : before ++ t :: more' ++ [v] = before' ++ [u] := by simpa using hread
      obtain ⟨rfl, -⟩ := List.append_inj' hassoc rfl
      exact absurd hbefore (not_readable_of_malformed ht (by simp))

/-- `p` takes `t` behind `before`, with some tokens following. -/
def Takes (p : Parser α) (before : List Token) (t : Token) : Prop :=
  ∃ rest, left (p (before ++ t :: rest)) <:+ rest

theorem takes_of_error {p : Parser α} {before rest : List Token} {t : Token} {e : ParseError}
    (h : p (before ++ t :: rest) = .error e rest) : Takes p before t := by
  refine ⟨rest, ?_⟩
  rw [h]
  exact List.suffix_refl _

/-- Where `t` is taken. -/
theorem read_of_suffix {before read rest unread : List Token} {t : Token}
    (h : before ++ t :: rest = read ++ unread) (hsuffix : unread <:+ rest) :
    ∃ more, read = before ++ t :: more ∧ rest = more ++ unread := by
  obtain ⟨more, rfl⟩ := hsuffix
  have hassoc : before ++ t :: more ++ unread = read ++ unread := by simpa using h
  exact ⟨more, (List.append_cancel_right hassoc).symm, rfl⟩

/-- What follows a token makes no difference to whether it is taken. -/
theorem Takes.any {p : Parser α} {before : List Token} {t : Token} (h : Takes p before t)
    (hp : ∀ ts, Sees p ts) (rest : List Token) : left (p (before ++ t :: rest)) <:+ rest := by
  obtain ⟨read, hsplit, hahead⟩ := (hp (before ++ t :: rest)).ahead
  generalize hunread : left (p (before ++ t :: rest)) = unread at hsplit hahead ⊢
  have hcases : unread <:+ rest ∨ t :: rest <:+ unread := by
    have hread : unread <:+ before ++ t :: rest := ⟨read, hsplit.symm⟩
    rcases List.suffix_or_suffix_of_suffix hread (List.suffix_append before (t :: rest)) with h | h
    · rcases List.suffix_cons_iff.1 h with rfl | h
      · exact .inr (List.suffix_refl _)
      · exact .inl h
    · exact .inr h
  refine hcases.resolve_right ?_
  -- a parser that stops before `t` has seen no more than `t`, so it always stops there
  rintro ⟨more, rfl⟩
  obtain rfl : before = read ++ more := List.append_cancel_right (by simpa using hsplit)
  obtain ⟨rest₀, hrest₀⟩ := h
  have hnext : next (more ++ t :: rest₀) = next (more ++ t :: rest) := by
    cases more <;> rfl
  rw [List.append_assoc, hahead _ hnext] at hrest₀
  have hstop : more ++ t :: rest₀ <:+ rest₀ := by
    cases hrun : p (read ++ more ++ t :: rest) with
    | ok a unread =>
      rw [hrun] at hrest₀
      exact hrest₀
    | error e unread =>
      rw [hrun] at hrest₀
      exact hrest₀
  have hlength := hstop.length_le
  simp at hlength
  omega

/-! ## The errors of a parser -/

/-- The errors of `p`. -/
structure ConvertsAtEnd (p : Parser α) : Prop where
  /-- An error about a token is about the next one, or about a number just taken. -/
  named : ∀ ts x found rest, p ts = .error (.unexpected x found) rest →
    x ≠ .numericLiteral ∧ found = next rest ∨
      x = .numericLiteral ∧ found.Malformed ∧ ∃ before, ts = before ++ found :: rest
  /-- Brackets keep it unless it is about the end, or about a number in front of the end. -/
  kept : ∀ ts x found rest groups, p ts = .error (.unexpected x found) rest → found.kind ≠ .eof →
    (nested groups p ts = .error (.unexpected x found) rest ↔
      (x = .numericLiteral → (next rest).kind = .eof → groups = []))
  /-- A number that cannot be read is named unless a bracket is open at the end. -/
  malformed : ∀ before t rest, t.Malformed → Takes p before t →
    (p (before ++ t :: rest) = .error (.unexpected .numericLiteral t) rest ↔
      ((next rest).kind = .eof → openBrackets [] before = []))
  /-- Then the innermost one is. -/
  hidden : ∀ before t rest b line outer, t.Malformed → Takes p before t →
    (next rest).kind = .eof → openBrackets [] before = (b, line) :: outer →
    p (before ++ t :: rest) = .error (.unclosed b line) rest
  /-- An open bracket is named at the end of the input only, and it is the innermost one. -/
  unclosed : ∀ ts b line rest, p ts = .error (.unclosed b line) rest →
    (next rest).kind = .eof ∧ ∃ read outer, ts = read ++ rest ∧
      openBrackets [] read = (b, line) :: outer

section Errors

variable {p : Parser α} {ts rest : List Token}

section Named

variable {base start after : List (Bracket × Nat)} {x : Expectation} {found : Token}

theorem named_of_ends (hends : Ends base start after ts (p ts))
    (h : p ts = .error (.unexpected x found) rest) :
    x ≠ .numericLiteral ∧ found = next rest ∨
      x = .numericLiteral ∧ found.Malformed ∧ ∃ before, ts = before ++ found :: rest := by
  rw [h] at hends
  obtain ⟨read, rfl, hstops⟩ := hends
  cases hstops with
  | reported hcause _ =>
    cases hcause with
    | refused hx _ => exact .inl ⟨hx, rfl⟩
    | malformed hread _ ht =>
      subst hread
      exact .inr ⟨rfl, ht, _, (List.append_cons ..).symm⟩

theorem settled_of_ends (hends : Ends base start after ts (p ts))
    (h : p ts = .error (.unexpected x found) rest) (hfound : found.kind ≠ .eof)
    (hnumber : x = .numericLiteral → (next rest).kind ≠ .eof) :
    Settled (.unexpected x found) rest := by
  rcases named_of_ends hends h with ⟨-, rfl⟩ | ⟨hx, -⟩
  · exact settled_of_ne hfound
  · exact settled_of_ne (hnumber hx)

end Named

theorem unclosed_of_ends (hends : Ends [] [] [] ts (p ts)) {b : Bracket} {line : Nat}
    (h : p ts = .error (.unclosed b line) rest) :
    (next rest).kind = .eof ∧ ∃ read outer, ts = read ++ rest ∧
      openBrackets [] read = (b, line) :: outer := by
  rw [h] at hends
  obtain ⟨read, hts, hstops⟩ := hends
  cases hstops with
  | reported hcause _ => cases hcause
  | unclosed _ hend hopen => exact ⟨hend, read, _, hts, hopen⟩

/-- A number that cannot be read is the cause of an error if it is taken. -/
theorem stops_of_takes {before : List Token} {t : Token} (hends : ∀ ts, Ends [] [] [] ts (p ts))
    (hsees : ∀ ts, Sees p ts) (ht : t.Malformed) (htakes : Takes p before t) (rest : List Token) :
    ∃ e, p (before ++ t :: rest) = .error e rest ∧
      (e = .unexpected .numericLiteral t ∧
          ((next rest).kind = .eof → openBrackets [] before = []) ∨
        (next rest).kind = .eof ∧ ∃ b line outer, openBrackets [] before = (b, line) :: outer ∧
          e = .unclosed b line) := by
  have hends := hends (before ++ t :: rest)
  have htaken := htakes.any hsees rest
  have hopen : openBrackets [] (before ++ [t]) = openBrackets [] before := by
    rw [openBrackets_append, openBrackets_cons, track_plain (ht.1 ▸ rfl), openBrackets_nil]
  cases h : p (before ++ t :: rest) with
  | ok a unread =>
    rw [h] at hends htaken
    obtain ⟨read, hsplit, hread, -⟩ := hends
    obtain ⟨more, rfl, -⟩ := read_of_suffix hsplit htaken
    exact absurd hread (not_readable_of_malformed ht (by simp))
  | error e unread =>
    rw [h] at hends htaken
    obtain ⟨read, hsplit, hstops⟩ := hends
    obtain ⟨more, rfl, rfl⟩ := read_of_suffix hsplit htaken
    cases hstops with
    | reported hcause hend =>
      obtain ⟨rfl, rfl⟩ := hcause.of_malformed ht
      exact ⟨_, rfl, .inl ⟨rfl, fun h => hopen.symm.trans (hend h)⟩⟩
    | unclosed hcause hend hopen' =>
      obtain ⟨rfl, -⟩ := hcause.of_malformed ht
      exact ⟨_, rfl, .inr ⟨hend, _, _, _, hopen.symm.trans hopen', rfl⟩⟩

theorem ConvertsAtEnd.of_ends (hends : ∀ ts, Ends [] [] [] ts (p ts)) (hsees : ∀ ts, Sees p ts) :
    ConvertsAtEnd p where
  named ts x found rest := named_of_ends (hends ts)
  kept ts x found rest groups h hfound := by
    constructor
    · intro hnested _ hend
      cases groups with
      | nil => rfl
      | cons g groups => cases (nested_at_end h hend g groups).symm.trans hnested
    · intro hcase
      by_cases hlost : x = .numericLiteral ∧ (next rest).kind = .eof
      · rw [hcase hlost.1 hlost.2]
        exact h
      · refine nested_of_settled h (settled_of_ends (hends ts) h hfound fun hx hend => ?_) groups
        exact hlost ⟨hx, hend⟩
  malformed before t rest ht htakes := by
    obtain ⟨e, herror, ⟨rfl, hempty⟩ | ⟨hend, b, line, outer, hopen, rfl⟩⟩ :=
      stops_of_takes hends hsees ht htakes rest
    · exact ⟨fun _ => hempty, fun _ => herror⟩
    · constructor
      · intro h
        cases herror.symm.trans h
      · intro h
        cases hopen.symm.trans (h hend)
  hidden before t rest b line outer ht htakes hend hopen := by
    obtain ⟨e, herror, ⟨-, hempty⟩ | ⟨-, b', line', outer', hopen', rfl⟩⟩ :=
      stops_of_takes hends hsees ht htakes rest
    · cases (hempty hend).symm.trans hopen
    · cases hopen.symm.trans hopen'
      exact herror
  unclosed ts b line rest := unclosed_of_ends (hends ts)

end Errors

/-! ## Entry points -/

/-- The parsers that are there to be called from outside. -/
inductive Routine.EntryPoint : Routine → Prop
  | program : EntryPoint .program
  | statement : EntryPoint .statement
  | statementList : EntryPoint .statementList
  | expression : EntryPoint .expression
  | objectLiteral : EntryPoint .objectLiteral
  | additive : EntryPoint .additive
  | multiplicative : EntryPoint .multiplicative

theorem Routine.EntryPoint.convertsAtEnd {r : Routine} (hr : r.EntryPoint) :
    ConvertsAtEnd r.parser := by
  have hends (r : Routine) (h : r.opened = []) (ts : List Token) :
      Ends [] [] [] ts (r.parser ts) := by
    have hbalanced := balanced r ts []
    rwa [h] at hbalanced
  cases hr with
  | program => exact .of_ends (hends .program rfl) sees_program
  | statement => exact .of_ends (hends .statement rfl) sees_statement
  | statementList => exact .of_ends (hends .statementList rfl) sees_statementList
  | expression => exact .of_ends (hends .expression rfl) sees_expression
  | objectLiteral => exact .of_ends (hends .objectLiteral rfl) sees_objectLiteral
  | additive => exact .of_ends (hends .additive rfl) sees_additive
  | multiplicative => exact .of_ends (hends .multiplicative rfl) sees_multiplicative

/-- An error about a token comes out of all calls that led to it, unless it is about a number that
cannot be read, with the end of the input behind it and a bracket open. -/
theorem surfaces_iff {r r' : Routine} {ts us rest : List Token} {x : Expectation} {found : Token}
    (hr : ConvertsAtEnd r.parser) (hcalls : Relation.ReflTransGen Calls (r, ts) (r', us))
    (herror : r'.parser us = .error (.unexpected x found) rest) (hfound : found.kind ≠ .eof) :
    r.parser ts = .error (.unexpected x found) rest ↔
      (x = .numericLiteral → (next rest).kind = .eof →
        ∀ before, ts = before ++ found :: rest → openBrackets [] before = []) := by
  have hends := balanced r' us []
  constructor
  · rintro h rfl hend before rfl
    obtain ⟨hx, -⟩ | ⟨-, ht, -⟩ := hr.named _ _ _ _ h
    · exact absurd rfl hx
    · exact (hr.malformed before found rest ht (takes_of_error h)).1 h hend
  · intro hcase
    obtain ⟨e, he, hkept⟩ := error_of_calls hcalls herror
    by_cases hlost : x = .numericLiteral ∧ (next rest).kind = .eof
    · obtain ⟨rfl, hend⟩ := hlost
      obtain ⟨hx, -⟩ | ⟨-, ht, before, hus⟩ := named_of_ends hends herror
      · exact absurd rfl hx
      · obtain ⟨pre, hpre⟩ := calls_suffix hcalls
        obtain rfl : ts = pre ++ before ++ found :: rest := by
          rw [List.append_assoc, ← hus]
          exact hpre.symm
        refine (hr.malformed (pre ++ before) found rest ht (takes_of_error he)).2 fun _ => ?_
        exact hcase rfl hend _ rfl
    · have hsettled := settled_of_ends hends herror hfound fun hx hend => hlost ⟨hx, hend⟩
      rw [← hkept hsettled]
      exact he

/-- Only the end of the input turns an error into an open bracket, but the end is also what stands
behind a number that was taken and cannot be read. -/
theorem unclosed_only_at_end {r : Routine} (hr : r.EntryPoint) :
    ConvertsAtEnd r.parser ∧
      ∀ (ts : List Token) (r' : Routine) (us rest : List Token) (x : Expectation) (found : Token),
        Relation.ReflTransGen Calls (r, ts) (r', us) →
        r'.parser us = .error (.unexpected x found) rest → found.kind ≠ .eof →
        (r.parser ts = .error (.unexpected x found) rest ↔
          (x = .numericLiteral → (next rest).kind = .eof →
            ∀ before, ts = before ++ found :: rest → openBrackets [] before = [])) := by
  have hconverts := hr.convertsAtEnd
  exact ⟨hconverts, fun _ _ _ _ _ _ => surfaces_iff hconverts⟩

/-- A bracket and a number that cannot be read, in front of a closing bracket. -/
theorem openNumber_reported :
    let opener : Token := ⟨.leftParen, "(", 1⟩
    let t : Token := ⟨.number, "x", 2⟩
    let closer : Token := ⟨.rightParen, ")", 3⟩
    let e := ParseError.unexpected .numericLiteral t
    Routine.program.EntryPoint ∧ t.Malformed ∧ Takes program [opener] t ∧
      program [opener, t, closer] = .error e [closer] := by
  have hnone : Numeral.read? "x" = none := rfl
  have herror : program [⟨.leftParen, "(", 1⟩, ⟨.number, "x", 2⟩, ⟨.rightParen, ")", 3⟩] =
      .error (.unexpected .numericLiteral ⟨.number, "x", 2⟩) [⟨.rightParen, ")", 3⟩] := rfl
  intro opener t closer e
  have ht : t.Malformed := ⟨rfl, hnone⟩
  have htakes : Takes program [opener] t := takes_of_error herror
  have hmore : (next [closer]).kind ≠ .eof := by decide
  obtain ⟨hconverts, -⟩ := unclosed_only_at_end .program
  exact ⟨.program, ht, htakes,
    (hconverts.malformed [opener] t [closer] ht htakes).2 fun hend => absurd hend hmore⟩

/-- Without the closing bracket, the error about the number is lost. -/
theorem openNumber_unclosed :
    let opener : Token := ⟨.leftParen, "(", 1⟩
    let t : Token := ⟨.number, "x", 2⟩
    Numeral.read? t.text = none ∧ Program.ofTokens [t] = .error (.unexpected .numericLiteral t) ∧
      Program.ofTokens [opener, t] = .error (.unclosed .round 1) := by
  exact ⟨rfl, rfl, rfl⟩

end ScopeScript.Parser
