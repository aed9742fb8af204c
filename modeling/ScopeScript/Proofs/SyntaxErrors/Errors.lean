import ScopeScript.Proofs.SyntaxErrors.Pieces

/-!
# Where parsers fail

`Breaks group P start p ts` is about a parser `p` in the middle of a phrase `P` that starts at
`start` and goes on at `ts`.  If `p` fails there then

* the tokens from `start` to the one it stops at can be completed to a `P`, and
* the error names that token; at the end of the input it names the innermost bracket that is open
  since `start`, if there is one.

A parser that has its opening bracket behind it but runs outside of `within`, such as `close`, may
also name that bracket, which is `group`.
-/

namespace ScopeScript

/-! ## Tokens to complete phrases with -/

/-- A closing bracket. -/
def Bracket.closer : Bracket → Token
  | round => ⟨.rightParen, ")", 1⟩
  | square => ⟨.rightBracket, "]", 1⟩
  | curly => ⟨.rightBrace, "\x7d", 1⟩

/-- An opening bracket. -/
def Bracket.opener : Bracket → Token
  | round => ⟨.leftParen, "(", 1⟩
  | square => ⟨.leftBracket, "[", 1⟩
  | curly => ⟨.leftBrace, "\x7b", 1⟩

def anyName : Token := ⟨.identifier, "x", 1⟩

theorem Bracket.closer_kind (b : Bracket) : b.closer.kind = b.closing := by
  cases b <;> rfl

theorem Bracket.closer_legal (b : Bracket) : b.closer.Legal := by
  cases b
  · exact ⟨')', rfl, rfl⟩
  · exact ⟨']', rfl, rfl⟩
  · exact ⟨'}', rfl, rfl⟩

theorem Bracket.opener_legal (b : Bracket) : b.opener.Legal := by
  cases b
  · exact ⟨'(', rfl, rfl⟩
  · exact ⟨'[', rfl, rfl⟩
  · exact ⟨'{', rfl, rfl⟩

theorem anyName_legal : anyName.Legal := ⟨.of_all (by decide) (by decide), by decide⟩

namespace Grammar

open ScopeScript.Parser

variable {α β : Type}

/-- Tokens that texts can have complete `read` to a `P`, whatever follows then. -/
def Completable (P : List Token → List Token → Prop) (read : List Token) : Prop :=
  ∃ us : List Token, (∀ t ∈ us, t.Legal) ∧ ∀ rest, P (read ++ (us ++ rest)) rest

/-! ## Errors -/

/-- What an error at the token `t` says when the brackets of `stack` are open. -/
inductive Reported (group : Option (Bracket × Nat)) :
    List (Bracket × Nat) → ParseError → Token → Prop
  | unexpected {stack : List (Bracket × Nat)} {x : Expectation} {t : Token}
      (h : t.kind = .eof → stack = []) : Reported group stack (.unexpected x t) t
  | unclosed {stack : List (Bracket × Nat)} {b : Bracket} {line : Nat} {t : Token}
      (h : t.kind = .eof) : Reported group ((b, line) :: stack) (.unclosed b line) t
  | group {b : Bracket} {line : Nat} {t : Token} (h : t.kind = .eof)
      (hg : group = some (b, line)) : Reported group [] (.unclosed b line) t

/-- A phrase `P` that starts at `start` fails with `e`, with `rest` left. -/
def Broken (group : Option (Bracket × Nat)) (P : List Token → List Token → Prop)
    (start : List Token) (e : ParseError) (rest : List Token) : Prop :=
  ∃ read stack, start = read ++ rest ∧ (∀ t ∈ read, t.kind ≠ .eof) ∧
    (∀ below, openBrackets below read = stack ++ below) ∧ Reported group stack e (next rest) ∧
    Completable P read

/-- All number tokens spell numbers. -/
def Readable (ts : List Token) : Prop :=
  ∀ t ∈ ts, t.kind = .number → (Numeral.read? t.text).isSome

def Breaks (group : Option (Bracket × Nat)) (P : List Token → List Token → Prop)
    (start : List Token) (p : Parser α) (ts : List Token) : Prop :=
  Readable start → ∀ e rest, p ts = .error e rest → Broken group P start e rest

namespace Breaks

variable {group : Option (Bracket × Nat)} {P Q R : List Token → List Token → Prop}
  {start ts : List Token} {p : Parser α}

/-! ## Parsers that fail at once, or not -/

theorem pure {a : α} : Breaks group P start (Pure.pure a) ts := nofun

theorem of_unread {e : ParseError} (h : Completable P []) (hr : Reported group [] e (next ts)) :
    Breaks group P ts (MonadExcept.throw e : Parser α) ts := by
  rintro - _ _ ⟨⟩
  exact ⟨[], [], rfl, nofun, fun _ => rfl, hr, h⟩

theorem refuse {x : Expectation} (h : Completable P []) :
    Breaks group P ts (refuse x : Parser α) ts :=
  of_unread h (.unexpected fun _ => rfl)

theorem throw_unclosed {b : Bracket} {line : Nat} (h : Completable P [])
    (hend : (next ts).kind = .eof) :
    Breaks (some (b, line)) P ts (MonadExcept.throw (.unclosed b line) : Parser α) ts :=
  of_unread h (.group hend rfl)

/-! ## Steps -/

theorem bind {f : α → Parser β} {F : α → List Token → Prop} (hp : Breaks group P start p ts)
    (hok : Finds p ts F) (hf : ∀ a mid, F a mid → Breaks group P start (f a) mid) :
    Breaks group P start (p >>= f) ts := by
  intro hread e rest he
  rw [bind_apply] at he
  cases h : p ts with
  | ok a mid =>
    rw [h] at he
    exact hf a mid (hok a mid h) hread e rest he
  | error e' mid =>
    rw [h] at he
    cases he
    exact hp hread e rest h

/-- What comes after `p` never fails. -/
theorem bind_pure {f : α → β} (hp : Breaks group P start p ts) :
    Breaks group P start (p >>= fun a => Pure.pure (f a)) ts :=
  hp.bind (F := fun _ _ => True) (fun _ _ _ => trivial) fun _ _ _ => .pure

theorem peek_bind {f : Token → Parser α} (h : Breaks group P start (f (next ts)) ts) :
    Breaks group P start (peek >>= f) ts := h

theorem peekKind_bind {f : TokenKind → Parser α} (h : Breaks group P start (f (next ts).kind) ts) :
    Breaks group P start (peekKind >>= f) ts := h

theorem advance_bind {f : Unit → Parser α} (h : Breaks group P start (f ()) ts.tail) :
    Breaks group P start (advance >>= f) ts := h

theorem skipSemicolons_bind {f : Unit → Parser α}
    (h : Breaks group P start (f ()) (ts.dropWhile (·.kind == .semicolon))) :
    Breaks group P start (skipSemicolons >>= f) ts := h

/-! ## Larger phrases -/

/-- A phrase without an unfinished bracket around it can stand in one. -/
theorem loosen (h : Breaks none P start p ts) : Breaks group P start p ts := by
  intro hread e rest he
  obtain ⟨read, stack, hstart, hne, hstack, hr, hP⟩ := h hread e rest he
  refine ⟨read, stack, hstart, hne, hstack, ?_, hP⟩
  cases hr with
  | unexpected hend => exact .unexpected hend
  | unclosed hend => exact .unclosed hend
  | group _ hg => cases hg

/-- The phrase stands in front of other tokens of a larger one. -/
theorem before {us : List Token} (hus : ∀ t ∈ us, t.Legal) (h : Breaks group Q start p ts)
    (join : ∀ a c, Q a (us ++ c) → P a c) : Breaks group P start p ts := by
  intro hread e rest he
  obtain ⟨read, stack, hstart, hne, hstack, hr, vs, hvs, hQ⟩ := h hread e rest he
  refine ⟨read, stack, hstart, hne, hstack, hr, vs ++ us, ?_, fun c => join _ _ ?_⟩
  · intro t ht
    rcases List.mem_append.1 ht with ht | ht
    · exact hvs t ht
    · exact hus t ht
  · rw [List.append_assoc]
    exact hQ (us ++ c)

theorem mono (h : Breaks group Q start p ts) (hPQ : ∀ a c, Q a c → P a c) :
    Breaks group P start p ts := by
  have hnone : ∀ t ∈ ([] : List Token), t.Legal := nofun
  exact h.before hnone hPQ

/-- The phrase stands behind a piece of a larger one. -/
theorem after {start' : List Token} (hR : Piece R start start') (h : Breaks group Q start' p ts)
    (join : ∀ a b c, R a b → Q b c → P a c) : Breaks group P start p ts := by
  obtain ⟨us, rfl, hne, hstack, hR⟩ := hR
  intro hread e rest he
  have hread' : Readable start' := fun t ht => hread t (List.mem_append_right us ht)
  obtain ⟨read, stack, rfl, hne', hstack', hr, vs, hvs, hQ⟩ := h hread' e rest he
  refine ⟨us ++ read, stack, (List.append_assoc ..).symm, ?_, ?_, hr, vs, hvs, fun c => ?_⟩
  · intro t ht
    rcases List.mem_append.1 ht with ht | ht
    · exact hne t ht
    · exact hne' t ht
  · intro below
    rw [openBrackets_append, hstack, hstack']
  · rw [List.append_assoc]
    exact join _ _ _ (hR _) (hQ c)

/-- The phrase stands in brackets.  An error at the end of the input that named no bracket names
this one. -/
theorem within {b : Bracket} {opener : Token} (ho : opener.kind = b.opening)
    (h : Breaks (some (b, opener.line)) (Closed b Q) ts p ts) :
    Breaks group (Enclosed b Q) (opener :: ts) (within b opener.line p) ts := by
  intro hread e rest he
  have hread' : Readable ts := fun t ht => hread t (List.mem_cons_of_mem opener ht)
  have hopener : opener.kind ≠ .eof := ho ▸ opening_ne_eof b
  -- the report changes, everything else is as it is without the opening bracket
  have hbroken {e' : ParseError} (hp : p ts = .error e' rest)
      (hreport : ∀ stack, Reported (some (b, opener.line)) stack e' (next rest) →
        Reported group (stack ++ [(b, opener.line)]) e (next rest)) :
      Broken group (Enclosed b Q) (opener :: ts) e rest := by
    obtain ⟨read, stack, hts, hne, hstack, hr, vs, hvs, hQ⟩ := h hread' e' rest hp
    refine ⟨opener :: read, stack ++ [(b, opener.line)], ?_, ?_, ?_, hreport stack hr, vs, hvs, ?_⟩
    · rw [hts, List.cons_append]
    · simpa [hopener] using hne
    · intro below
      rw [openBrackets_cons, track_opening ho, hstack, List.append_assoc, List.singleton_append]
    · exact fun c => ⟨opener, _, rfl, ho, hQ c⟩
  rw [within_apply] at he
  cases hp : p ts with
  | ok a mid =>
    rw [hp] at he
    cases he
  | error e' mid =>
    rw [hp] at he
    cases e' with
    | unclosed b' line' =>
      cases he
      refine hbroken hp fun stack hr => ?_
      cases hr with
      | unclosed hend => exact .unclosed hend
      | group hend hg =>
        cases hg
        exact .unclosed hend
    | unexpected x found =>
      dsimp only at he
      split at he
      · next hend =>
        cases he
        refine hbroken hp fun stack hr => ?_
        cases hr with
        | unexpected hempty =>
          rw [hempty hend]
          exact .unclosed hend
      · next hmore =>
        cases he
        refine hbroken hp fun stack hr => ?_
        cases hr with
        | unexpected _ => exact .unexpected fun hend => absurd hend hmore

end Breaks

end Grammar

end ScopeScript
