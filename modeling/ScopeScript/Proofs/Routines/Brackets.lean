import ScopeScript.Proofs.Routines.Equations
import ScopeScript.Proofs.SyntaxErrors.Errors

/-!
# Open brackets along the routines

The tokens that a parser takes have a stack of open brackets.  If the parser succeeds then its
brackets are closed again, and all numbers among its tokens can be read.  If it fails then its error
is what made it stop, with one exception: at the end of the input, the innermost bracket is named
that is open since the parser started (`Stops`).

    meets_steps   the steps of every routine, if its calls do what they should
    balanced      every routine
-/

namespace ScopeScript

/-- A number that cannot be read. -/
def Token.Malformed (t : Token) : Prop := t.kind = .number ∧ Numeral.read? t.text = none

namespace Parser

open Grammar (Readable)

variable {α β : Type} {c : Parsers}

/-! ## Failures -/

/-- Why a parser that took `read` goes no further: because of the token that stands next, or because
of the last one that it took. -/
inductive Cause (read rest : List Token) : ParseError → Prop
  | refused {x : Expectation} (hx : x ≠ .numericLiteral) (hread : Readable read) :
      Cause read rest (.unexpected x (next rest))
  | malformed {before : List Token} {t : Token} (hread : read = before ++ [t])
      (hbefore : Readable before) (ht : t.Malformed) :
      Cause read rest (.unexpected .numericLiteral t)

/-- The error of a parser that took `read`, behind the brackets of `start`.  The brackets of `base`
are not its own. -/
inductive Stops (base start : List (Bracket × Nat)) (read rest : List Token) : ParseError → Prop
  | reported {e : ParseError} (hcause : Cause read rest e)
      (hend : (next rest).kind = .eof → openBrackets start read = base) :
      Stops base start read rest e
  | unclosed {e : ParseError} {b : Bracket} {line : Nat} {outer : List (Bracket × Nat)}
      (hcause : Cause read rest e) (hend : (next rest).kind = .eof)
      (hopen : openBrackets start read = (b, line) :: outer) :
      Stops base start read rest (.unclosed b line)

/-- How a run on `ts` ends, behind the brackets of `start`. -/
def Ends (base start after : List (Bracket × Nat)) (ts : List Token) :
    EStateM.Result ParseError (List Token) α → Prop
  | .ok _ rest => ∃ read, ts = read ++ rest ∧ Readable read ∧ openBrackets start read = after
  | .error e rest => ∃ read, ts = read ++ rest ∧ Stops base start read rest e

theorem readable_append {ts us : List Token} (hts : Readable ts) (hus : Readable us) :
    Readable (ts ++ us) := by
  intro t ht
  rcases List.mem_append.1 ht with ht | ht
  · exact hts t ht
  · exact hus t ht

theorem Cause.behind {read read' rest : List Token} {e : ParseError} (hread : Readable read)
    (h : Cause read' rest e) : Cause (read ++ read') rest e := by
  cases h with
  | refused hx hread' => exact .refused hx (readable_append hread hread')
  | malformed hread' hbefore ht =>
    subst hread'
    exact .malformed (List.append_assoc ..).symm (readable_append hread hbefore) ht

section Ends

variable {base start mid after : List (Bracket × Nat)} {read ts us : List Token}

/-- The parser goes on behind tokens that were taken before. -/
theorem Ends.behind {r : EStateM.Result ParseError (List Token) α} (hts : ts = read ++ us)
    (hread : Readable read) (hopen : openBrackets start read = mid) (h : Ends base mid after us r) :
    Ends base start after ts r := by
  subst hts hopen
  cases r with
  | ok a rest =>
    obtain ⟨read', rfl, hread', hopen'⟩ := h
    refine ⟨read ++ read', (List.append_assoc ..).symm, readable_append hread hread', ?_⟩
    rw [openBrackets_append, hopen']
  | error e rest =>
    obtain ⟨read', rfl, hstops⟩ := h
    refine ⟨read ++ read', (List.append_assoc ..).symm, ?_⟩
    cases hstops with
    | reported hcause hend =>
      refine .reported (hcause.behind hread) fun h => ?_
      rw [openBrackets_append, hend h]
    | unclosed hcause hend hopen =>
      exact .unclosed (hcause.behind hread) hend (by rw [openBrackets_append, hopen])

theorem ends_bind {p : Parser α} {f : α → Parser β} (hp : Ends base start mid ts (p ts))
    (hf : ∀ a rest, p ts = .ok a rest → Ends base mid after rest (f a rest)) :
    Ends base start after ts ((p >>= f) ts) := by
  rw [bind_apply]
  cases h : p ts with
  | ok a rest =>
    rw [h] at hp
    obtain ⟨read, hts, hread, hopen⟩ := hp
    exact (hf a rest h).behind hts hread hopen
  | error e rest =>
    rw [h] at hp
    exact hp

theorem ends_pure (a : α) : Ends base start start ts ((pure a : Parser α) ts) :=
  ⟨[], rfl, nofun, rfl⟩

theorem ends_refuse {x : Expectation} (hx : x ≠ .numericLiteral) :
    Ends base base after ts ((refuse x : Parser α) ts) :=
  ⟨[], rfl, .reported (.refused hx nofun) fun _ => rfl⟩

/-- The end of the input behind an open bracket. -/
theorem ends_unclosed {b : Bracket} {line : Nat} {outer : List (Bracket × Nat)}
    (hend : (next ts).kind = .eof) :
    Ends base ((b, line) :: outer) after ts ((throw (.unclosed b line) : Parser α) ts) :=
  ⟨[], rfl, .unclosed (.refused (x := .expression) nofun nofun) hend rfl⟩

/-- A token was taken that is no number or can be read. -/
theorem Ends.of_tail {r : EStateM.Result ParseError (List Token) α} (hne : (next ts).kind ≠ .eof)
    (hread : (next ts).kind = .number → (Numeral.read? (next ts).text).isSome)
    (h : Ends base (track start (next ts)) after ts.tail r) : Ends base start after ts r := by
  have hts : ts = [next ts] ++ ts.tail := Grammar.cons_of_kind rfl hne
  refine h.behind hts (fun t ht => ?_) rfl
  rw [List.mem_singleton.1 ht]
  exact hread

theorem ends_expect_bind {f : Token → Parser α} {kind : TokenKind} {x : Expectation}
    (hne : kind ≠ .eof) (hnumber : kind ≠ .number) (hx : x ≠ .numericLiteral)
    (h : (next ts).kind = kind →
      Ends base (track base (next ts)) after ts.tail (f (next ts) ts.tail)) :
    Ends base base after ts ((expect kind x >>= f) ts) := by
  rw [bind_apply, expect_apply]
  by_cases hk : (next ts).kind = kind
  · rw [if_pos hk]
    exact (h hk).of_tail (fun hend => hne (hk.symm.trans hend))
      fun hk' => absurd (hk.symm.trans hk') hnumber
  · rw [if_neg hk]
    exact ends_refuse hx

theorem ends_identifier : Ends base base base ts (identifier ts) := by
  refine ends_expect_bind (by decide) (by decide) (by decide) fun hk => ?_
  rw [track_plain (hk ▸ rfl)]
  exact ends_pure _

theorem ends_close {b : Bracket} {line : Nat} :
    Ends ((b, line) :: after) ((b, line) :: after) after ts (close b line ts) := by
  show Ends _ _ after ts ((if (next ts).kind = b.closing then advance
    else if (next ts).kind = .eof then throw (.unclosed b line)
    else refuse (.token b.closing) : Parser Unit) ts)
  split
  · next hk =>
    refine Ends.of_tail (hk ▸ closing_ne_eof b) (fun hk' => ?_) ?_
    · cases b <;> cases hk.symm.trans hk'
    · rw [track_closing hk]
      exact ends_pure ()
  · split
    · next hend => exact ends_unclosed hend
    · exact ends_refuse nofun

/-- What fails inside of a bracket with nothing but that bracket open names it at the end. -/
theorem ends_within {b : Bracket} {line : Nat} {p : Parser α}
    (h : Ends ((b, line) :: after) start after ts (p ts)) :
    Ends base start after ts (within b line p ts) := by
  rw [within_apply]
  cases hp : p ts with
  | ok a rest =>
    rw [hp] at h
    exact h
  | error e rest =>
    rw [hp] at h
    obtain ⟨read, hts, hstops⟩ := h
    cases hstops with
    | unclosed hcause hend hopen => exact ⟨read, hts, .unclosed hcause hend hopen⟩
    | reported hcause hbase =>
      obtain ⟨x, found, rfl⟩ : ∃ x found, e = .unexpected x found := by
        cases hcause with
        | refused => exact ⟨_, _, rfl⟩
        | malformed => exact ⟨_, _, rfl⟩
      dsimp only
      split
      · next hend => exact ⟨read, hts, .unclosed hcause hend (hbase hend)⟩
      · next hmore => exact ⟨read, hts, .reported hcause fun hend => absurd hend hmore⟩

end Ends

/-! ## Steps -/

/-- The brackets that the caller of a routine opened for it. -/
def Routine.opened : Routine → List (Bracket × Nat)
  | arguments line | parameters line => [(.round, line)]
  | _ => []

/-- The routine `r` does on `ts` what it should: it closes what it opens and the brackets that its
caller opened for it. -/
def Balanced (c : Parsers) (r : Routine) (ts : List Token) : Prop :=
  ∀ below, Ends (r.opened ++ below) (r.opened ++ below) below ts (c r ts)

/-- If all calls do what they should then the steps end as they should. -/
def Steps.Meets (c : Parsers) (base start after : List (Bracket × Nat)) (s : Steps α)
    (ts : List Token) : Prop :=
  (∀ r us, (r, us) ∈ s.calls c ts → Balanced c r us) → Ends base start after ts (s.parser c ts)

namespace Steps.Meets

variable {base start mid after below : List (Bracket × Nat)} {ts : List Token}

theorem act {p : Parser α} (h : Ends base start after ts (p ts)) :
    (Steps.act p).Meets c base start after ts := fun _ => h

theorem pure (a : α) : (Pure.pure a : Steps α).Meets c base start start ts := act (ends_pure a)

theorem refuse {x : Expectation} (hx : x ≠ .numericLiteral) :
    (Steps.act (Parser.refuse x) : Steps α).Meets c base base after ts := act (ends_refuse hx)

theorem unclosed {b : Bracket} {line : Nat} (hend : (next ts).kind = .eof) :
    (Steps.fail (.unclosed b line) : Steps α).Meets c base ((b, line) :: below) after ts :=
  act (ends_unclosed hend)

theorem call (r : Routine) (below : List (Bracket × Nat)) :
    (Steps.call r).Meets c (r.opened ++ below) (r.opened ++ below) below ts :=
  fun h => h r ts List.mem_cons_self below

theorem within {s : Steps α} {b : Bracket} {line : Nat}
    (h : s.Meets c ((b, line) :: after) start after ts) :
    (Steps.within b line s).Meets c base start after ts :=
  fun hcalls => ends_within (h hcalls)

theorem bind {s : Steps α} {f : α → Steps β} (hs : s.Meets c base start mid ts)
    (hf : ∀ a rest, (f a).Meets c base mid after rest) :
    (s >>= f).Meets c base start after ts := by
  intro hcalls
  refine ends_bind (hs fun r us h => hcalls r us (mem_calls_bind.2 (.inl h))) fun a rest hrun => ?_
  exact hf a rest fun r us h => hcalls r us (mem_calls_bind.2 (.inr ⟨a, rest, hrun, h⟩))

theorem peek_bind {f : Token → Steps α} (h : (f (next ts)).Meets c base start after ts) :
    (Steps.act peek >>= f).Meets c base start after ts := h

theorem peekKind_bind {f : TokenKind → Steps α}
    (h : (f (next ts).kind).Meets c base start after ts) :
    (Steps.act peekKind >>= f).Meets c base start after ts := h

theorem advance_bind {f : Unit → Steps α} (hne : (next ts).kind ≠ .eof)
    (hread : (next ts).kind = .number → (Numeral.read? (next ts).text).isSome)
    (h : (f ()).Meets c base (track start (next ts)) after ts.tail) :
    (Steps.act advance >>= f).Meets c base start after ts :=
  fun hcalls => (h hcalls).of_tail hne hread

theorem plain_bind {f : Unit → Steps α} {kind : TokenKind} (hk : (next ts).kind = kind)
    (hplain : kind.isPlain = true) (hnumber : kind ≠ .number)
    (h : (f ()).Meets c base start after ts.tail) :
    (Steps.act advance >>= f).Meets c base start after ts := by
  subst hk
  refine advance_bind ?_ (fun hk => absurd hk hnumber) ?_
  · intro hend
    rw [hend] at hplain
    cases hplain
  · rwa [track_plain hplain]

theorem opening_bind {f : Unit → Steps α} {b : Bracket} (hk : (next ts).kind = b.opening)
    (h : (f ()).Meets c base ((b, (next ts).line) :: start) after ts.tail) :
    (Steps.act advance >>= f).Meets c base start after ts := by
  refine advance_bind (hk ▸ opening_ne_eof b) (fun hk' => ?_) ?_
  · cases b <;> cases hk.symm.trans hk'
  · rwa [track_opening hk]

theorem closing_bind {f : Unit → Steps α} {b : Bracket} {line : Nat}
    (hk : (next ts).kind = b.closing) (h : (f ()).Meets c base below after ts.tail) :
    (Steps.act advance >>= f).Meets c base ((b, line) :: below) after ts := by
  refine advance_bind (hk ▸ closing_ne_eof b) (fun hk' => ?_) ?_
  · cases b <;> cases hk.symm.trans hk'
  · rwa [track_closing hk]

theorem expect_bind {f : Token → Steps α} {kind : TokenKind} {x : Expectation}
    (hne : kind ≠ .eof) (hnumber : kind ≠ .number) (hx : x ≠ .numericLiteral)
    (h : (next ts).kind = kind → (f (next ts)).Meets c base (track base (next ts)) after ts.tail) :
    (Steps.act (expect kind x) >>= f).Meets c base base after ts := by
  intro hcalls
  refine ends_expect_bind hne hnumber hx fun hk => h hk fun r us hmem => hcalls r us ?_
  have hrun : expect kind x ts = .ok (next ts) ts.tail := by rw [expect_apply, if_pos hk]
  exact mem_calls_bind.2 (.inr ⟨_, _, hrun, hmem⟩)

theorem identifier_bind {f : String → Steps α}
    (h : ∀ name rest, (f name).Meets c base base after rest) :
    (Steps.act identifier >>= f).Meets c base base after ts :=
  (act ends_identifier).bind h

/-- A number is taken, and then fails if it cannot be read. -/
theorem number {f : Float → Steps α} (hk : (next ts).kind = .number)
    (h : ∀ x, (f x).Meets c base base after ts.tail) :
    (Steps.act advance >>= fun _ =>
      match Numeral.read? (next ts).text with
      | some x => f x
      | none => Steps.fail (.unexpected .numericLiteral (next ts))).Meets c base base after ts := by
  cases hread : Numeral.read? (next ts).text with
  | some x =>
    refine advance_bind (by simp [hk]) (fun _ => by simp [hread]) ?_
    rw [track_plain (hk ▸ rfl)]
    exact h x
  | none =>
    intro _
    have htaken : [next ts] = [] ++ [next ts] := rfl
    have hcause : Cause [next ts] ts.tail (.unexpected .numericLiteral (next ts)) :=
      .malformed htaken nofun ⟨hk, hread⟩
    refine ⟨[next ts], Grammar.cons_of_kind hk (by decide), .reported hcause fun _ => ?_⟩
    rw [openBrackets_cons, openBrackets_nil, track_plain (hk ▸ rfl)]

end Steps.Meets

/-! ## Routines -/

section Routines

variable {base below : List (Bracket × Nat)} {ts : List Token}

theorem meets_closed {s : Steps α} {b : Bracket} {line : Nat}
    (h : s.Meets c ((b, line) :: below) ((b, line) :: below) ((b, line) :: below) ts) (f : α → β) :
    (Steps.within b line do
      let a ← s
      close b line
      return f a).Meets c base ((b, line) :: below) below ts :=
  .within (h.bind fun _ _ => (Steps.Meets.act ends_close).bind fun _ _ => .pure _)

theorem meets_orEmpty {s : Steps (List α)} {b : Bracket} {line : Nat}
    (h : s.Meets c base ((b, line) :: below) below ts) :
    (Steps.orEmpty b s).Meets c base ((b, line) :: below) below ts := by
  refine .peekKind_bind ?_
  split
  · next hk => exact .closing_bind hk (.pure _)
  · exact h

theorem meets_item {first : Steps α} {others : Steps (List α)} {b : Bracket} {line : Nat}
    (hfirst : first.Meets c ((b, line) :: below) ((b, line) :: below) ((b, line) :: below) ts)
    (hothers : ∀ rest, others.Meets c ((b, line) :: below) ((b, line) :: below) below rest) :
    (Steps.item b line first others).Meets c ((b, line) :: below) ((b, line) :: below) below
      ts := by
  refine .peekKind_bind ?_
  split
  · next hend => exact .unclosed hend
  · refine hfirst.bind fun x rest => .peekKind_bind ?_
    split
    · next hk => exact .plain_bind hk rfl (by decide) ((hothers _).bind fun _ _ => .pure _)
    · split
      · next hk => exact .closing_bind hk (.pure _)
      · split
        · next hend => exact .unclosed hend
        · exact .refuse nofun

theorem meets_link {level : Steps Expr} (accepts : BinaryOp → Bool) (left : Expr)
    {others : Expr → Steps Expr} (hlevel : ∀ rest, level.Meets c below below below rest)
    (hothers : ∀ e rest, (others e).Meets c below below below rest) :
    (Steps.link level accepts left others).Meets c below below below ts := by
  refine .peek_bind ?_
  split
  · next op hop =>
    split
    · have hk : (next ts).kind = .operator := by
        unfold operatorOf? at hop
        grind
      exact .plain_bind hk rfl (by decide) ((hlevel _).bind fun _ _ => hothers _ _)
    · exact .pure _
  · exact .pure _

theorem meets_field (key : String) (line : Nat) :
    (Steps.field key line).Meets c below below below ts := by
  have hproperties (rest) : (Steps.call .properties).Meets c below below below rest :=
    .call .properties below
  refine .peekKind_bind ?_
  split
  · next hk => exact .plain_bind hk rfl (by decide) ((hproperties _).bind fun _ _ => .pure _)
  · split
    · exact (hproperties _).bind fun _ _ => .pure _
    · refine .expect_bind (by decide) (by decide) (by decide) fun hk => ?_
      rw [track_plain (hk ▸ rfl)]
      refine .bind (.call .expression below) fun _ _ => .peekKind_bind ?_
      split
      · next hk => exact .plain_bind hk rfl (by decide) ((hproperties _).bind fun _ _ => .pure _)
      · split
        · exact (hproperties _).bind fun _ _ => .pure _
        · exact .refuse nofun

theorem meets_declaration (constant : Bool) (line : Nat) :
    (Steps.declaration constant line).Meets c below below below ts := by
  refine .identifier_bind fun name rest => .peekKind_bind ?_
  split
  · next hk =>
    exact .plain_bind hk rfl (by decide) (.bind (.call .expression below) fun _ _ => .pure _)
  · exact .pure _

theorem meets_function (line : Nat) : (Steps.function line).Meets c below below below ts := by
  refine .identifier_bind fun name rest =>
    .expect_bind (by decide) (by decide) (by decide) fun hk => ?_
  rw [track_opening (b := .round) hk]
  refine .bind (.within (meets_orEmpty (.call (.parameters _) below))) fun _ _ => ?_
  exact .bind (.call .statementList below) fun _ _ => .pure _

theorem meets_steps (r : Routine) :
    r.steps.Meets c (r.opened ++ below) (r.opened ++ below) below ts := by
  have hexpression (below rest) : (Steps.call .expression).Meets c below below below rest :=
    .call .expression below
  cases r with
  | primary =>
    refine .peek_bind ?_
    split
    · next hk => exact .plain_bind hk rfl (by decide) (.pure _)
    · next hk => exact .number hk fun _ => .pure _
    · next hk => exact .plain_bind hk rfl (by decide) (.pure _)
    · next hk => exact .opening_bind (b := .round) hk (meets_closed (hexpression _ _) id)
    · exact .refuse nofun
  | suffixes e =>
    have hothers (e rest) : (Steps.call (.suffixes e)).Meets c below below below rest :=
      .call (.suffixes e) below
    refine .peek_bind ?_
    split
    · next hk =>
      exact .plain_bind hk rfl (by decide) (.peek_bind (.identifier_bind fun _ _ => hothers _ _))
    · next hk =>
      refine .opening_bind (b := .square) hk (.bind ?_ fun _ _ => hothers _ _)
      exact meets_closed (hexpression _ _) id
    · next hk =>
      refine .opening_bind (b := .round) hk (.bind ?_ fun _ _ => hothers _ _)
      exact .within (meets_orEmpty (.call (.arguments _) below))
    · exact .pure _
  | operand => exact .bind (.call .primary below) fun e _ => .call (.suffixes e) below
  | factors left =>
    exact meets_link _ _ (fun _ => .call .operand below) fun e _ => .call (.factors e) below
  | multiplicative => exact .bind (.call .operand below) fun e _ => .call (.factors e) below
  | terms left =>
    exact meets_link _ _ (fun _ => .call .multiplicative below) fun e _ => .call (.terms e) below
  | additive => exact .bind (.call .multiplicative below) fun e _ => .call (.terms e) below
  | properties =>
    refine .peek_bind ?_
    split
    · exact .pure _
    · exact .identifier_bind fun key _ => meets_field key _
  | objectLiteral =>
    refine .peek_bind ?_
    split
    · next hk => exact .opening_bind (b := .curly) hk (meets_closed (.call .properties _) _)
    · exact .call .additive below
  | expression =>
    refine .bind (.call .objectLiteral below) fun left _ => .peek_bind ?_
    split
    · next hk => exact .plain_bind hk rfl (by decide) ((hexpression _ _).bind fun _ _ => .pure _)
    · exact .pure _
  | arguments line => exact meets_item (hexpression _ _) fun _ => .call (.arguments line) below
  | parameters line =>
    exact meets_item (.act ends_identifier) fun _ => .call (.parameters line) below
  | semicolons =>
    refine .peekKind_bind ?_
    split
    · next hk => exact .plain_bind hk rfl (by decide) (.call .semicolons below)
    · exact .pure _
  | statement =>
    refine .peek_bind ?_
    split
    · next hk => exact .plain_bind hk rfl (by decide) (meets_declaration _ _)
    · next hk => exact .plain_bind hk rfl (by decide) (meets_declaration _ _)
    · next hk => exact .plain_bind hk rfl (by decide) (meets_function _)
    · exact (hexpression _ _).bind fun _ _ => .pure _
  | statements inBlock =>
    refine .bind (.call .semicolons below) fun _ _ => .peekKind_bind ?_
    split
    · exact .pure _
    · exact .bind (.call .statement below) fun _ _ =>
        .bind (.call (.statements inBlock) below) fun _ _ => .pure _
  | statementList =>
    refine .expect_bind (by decide) (by decide) (by decide) fun hk => ?_
    rw [track_opening (b := .curly) hk]
    exact meets_closed (.call (.statements true) _) id
  | program => exact .call (.statements false) below

/-- By induction on the calls: every routine closes the brackets that it should. -/
theorem balanced (r : Routine) (ts : List Token) : Balanced Routine.parser r ts := by
  have hcall (a : Routine × List Token) : Balanced Routine.parser a.1 a.2 := by
    induction a using calls_wellFounded.induction with
    | _ a ih =>
      obtain ⟨r, ts⟩ := a
      intro below
      show Ends _ _ below ts (Routine.parser r ts)
      rw [parser_eq]
      exact meets_steps r fun r' us hmem => ih (r', us) hmem
  exact hcall (r, ts)

end Routines

end Parser

end ScopeScript
