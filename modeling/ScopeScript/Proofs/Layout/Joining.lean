import ScopeScript.Proofs.Grammar.Exact
import ScopeScript.Proofs.Layout.Scripts

/-!
# Scripts joined by a semicolon

A `;` ends a statement in every place where the end of the text does.  So a text that is a program
keeps its statements in front of `;` and any other text, which is read as it is read by itself after
as many line feeds as the first one has:

    Program.ofText (a ++ ";" ++ b) = (Program.ofText (feeds k ++ b)).map (p ++ ·)

Running the two together is running the first and, if it ends with a value, the second.
-/

namespace ScopeScript

/-! ## Statements in front of others -/

namespace Grammar

open ScopeScript.Parser

variable {α β : Type}

theorem map_apply (f : α → β) (p : Parser α) (ts : List Token) :
    (f <$> p) ts =
      match p ts with
      | .ok a rest => .ok (f a) rest
      | .error e rest => .error e rest := by
  simp only [Functor.map, EStateM.map]
  cases p ts <;> rfl

/-- The statements up to the end of the input. -/
abbrev topLevel (n : Nat) : Parser Program := Parser.statements statement (· == .eof) n

/-- The bound does not matter. -/
theorem topLevel_eq {n : Nat} {ts : List Token} (hn : ts.length ≤ n) : topLevel n ts = program ts := by
  rw [program_eq]
  exact statements_same consumes_statement rfl (fun _ _ => .refl _ _) hn (Nat.le_refl _)

theorem topLevel_cons {n : Nat} {ts mid : List Token} {s : Stmt} (hs : statement ts = .ok s mid)
    (heof : (next ts).kind ≠ .eof) (hsemicolon : (next ts).kind ≠ .semicolon) :
    topLevel (n + 1) ts = ((s :: ·) <$> topLevel n) mid := by
  show Becomes (Parser.statements statement (· == .eof) (n + 1)) ts _ mid
  refine .skipSemicolons_bind ?_
  rw [dropSemicolons_of_ne hsemicolon]
  refine .peekKind_bind ?_
  rw [if_neg (by simpa using heof)]
  exact .bind hs rfl

/-- A semicolon in front of a program is no part of it. -/
theorem program_semicolon {t : Token} (ht : t.kind = .semicolon) (ts : List Token) :
    program (t :: ts) = program ts := by
  have hn : ts.length ≤ (t :: ts).length := Nat.le_succ _
  rw [program_eq, ← topLevel_eq hn]
  exact statements_semicolon ht

/-- Statements are read in front of everything that no statement goes on with. -/
theorem Statements.topLevel_append {ts rest : List Token} {p : Program}
    (h : Statements true ts p rest) (hrest : endsStatement (next rest).kind = true) {n : Nat}
    (hn : ts.length ≤ n) : topLevel n ts = ((p ++ ·) <$> program) rest := by
  cases h with
  | nil =>
    rw [topLevel_eq hn, map_apply]
    cases program ts <;> rfl
  | semicolon ht h =>
    rw [topLevel_eq hn, program_semicolon ht, ← topLevel_eq (Nat.le_refl _)]
    exact h.topLevel_append hrest (Nat.le_refl _)
  | cons hs hss =>
    have hlt := hs.length_lt
    have hstart := hs.startsWith
    obtain ⟨n, rfl⟩ : ∃ m, n = m + 1 := Nat.exists_eq_add_one.2 (by omega)
    have hs' := hs.complete (hss.next_endsStatement hrest)
    rw [topLevel_cons hs' (ne_of_starts hstart rfl) (ne_of_starts hstart rfl), map_apply,
      hss.topLevel_append hrest (by omega), map_apply, map_apply]
    cases program rest <;> rfl

/-- A program in front of a semicolon and other tokens. -/
theorem ofTokens_joined {us : List Token} {p : Program} (h : Statements true us p []) {semi : Token}
    (hsemi : semi.kind = .semicolon) (rest : List Token) :
    Program.ofTokens (us ++ semi :: rest) = (Program.ofTokens rest).map (p ++ ·) := by
  obtain ⟨vs, hvs, -, hs⟩ := h.detached
  rw [List.append_nil] at hvs
  subst hvs
  have hjoined : Statements true (us ++ semi :: rest) p (semi :: rest) := by
    refine hs (semi :: rest) fun hparen => ?_
    rw [next_cons, hsemi] at hparen
    cases hparen
  have hends : endsStatement (next (semi :: rest)).kind = true := by
    rw [next_cons, hsemi]
    rfl
  have hread := hjoined.topLevel_append hends (Nat.le_refl _)
  rw [topLevel_eq (Nat.le_refl _), map_apply, program_semicolon hsemi] at hread
  unfold Program.ofTokens EStateM.run
  rw [hread]
  cases program rest <;> rfl

end Grammar

/-! ## Texts -/

/-- Line feeds. -/
def feeds (k : Nat) : String := String.ofList (List.replicate k '\n')

/-- A text after line feeds is on a later line. -/
theorem Token.tokensOf_feeds (k : Nat) (b : String) :
    tokensOf (feeds k ++ b) = scan (1 + k) b.toList := by
  unfold tokensOf feeds
  rw [String.toList_append, String.toList_ofList, scan_feeds]

theorem Token.sameReading_feeds (k : Nat) (b : String) : SameReading b (feeds k ++ b) := by
  unfold SameReading
  rw [tokensOf_feeds]
  exact scan_unlined _ _ _

/-- The tokens of a text stand in front of a semicolon and the tokens of another text. -/
theorem Token.tokensOf_joined {a : String} {ts : List Token} (ha : tokensOf a = .ok ts)
    (b : String) :
    ∃ us last semi, ts = us ++ [last] ∧ last.kind = .eof ∧ (∀ t ∈ us, t.kind ≠ .eof) ∧
      semi.kind = .semicolon ∧
      tokensOf (a ++ ";" ++ b) =
        (tokensOf (feeds (a.toList.count '\n') ++ b)).map fun vs => us ++ semi :: vs := by
  obtain ⟨us, hus, hne, hscan⟩ := scan_append (c := ';') ha ⟨by decide, by decide⟩ b.toList
  refine ⟨us, _, ⟨.semicolon, ";", 1 + a.toList.count '\n'⟩, hus, rfl, hne, rfl, ?_⟩
  have htext : (a ++ ";" ++ b).toList = a.toList ++ ';' :: b.toList := by simp
  rw [tokensOf_feeds, tokensOf, htext, hscan, scan_symbol (by rfl)]
  cases scan (1 + a.toList.count '\n') b.toList <;> rfl

theorem Program.exists_tokens_of_ofText {source : String} {p : Program}
    (h : ofText source = .ok p) : ∃ ts, Token.tokensOf source = .ok ts ∧ ofTokens ts = .ok p := by
  unfold ofText at h
  cases hts : Token.tokensOf source with
  | error e =>
    rw [hts] at h
    cases h
  | ok ts =>
    rw [hts] at h
    dsimp only at h
    cases hp : ofTokens ts with
    | error e =>
      rw [hp] at h
      cases h
    | ok q =>
      rw [hp] at h
      cases h
      exact ⟨ts, rfl, hp⟩

theorem Program.ofText_joined {a : String} {p : Program} (ha : ofText a = .ok p) (b : String) :
    ofText (a ++ ";" ++ b) = (ofText (feeds (a.toList.count '\n') ++ b)).map (p ++ ·) := by
  obtain ⟨ts, hts, hp⟩ := exists_tokens_of_ofText ha
  obtain ⟨us, last, semi, rfl, hlast, hne, hsemi, hread⟩ := Token.tokensOf_joined hts b
  have hspelled := (Grammar.ofTokens_eq_ok_iff_spelled _ p).1 hp
  rw [Grammar.beforeEnd_append hne (by rwa [Parser.next_cons])] at hspelled
  unfold ofText
  rw [hread]
  cases Token.tokensOf (feeds (a.toList.count '\n') ++ b) with
  | error e => rfl
  | ok vs =>
    simp only [Except.map, Grammar.ofTokens_joined hspelled hsemi vs]
    cases ofTokens vs <;> rfl

/-! ## Runs -/

namespace Eval

theorem stmts_append (calls : Calls) (opts : Options) (scope : ScopeId) (last : Value)
    (p q : List Stmt) :
    stmts calls opts scope last (p ++ q) =
      stmts calls opts scope last p >>= fun v => stmts calls opts scope v q := by
  induction p generalizing last with
  | nil => rfl
  | cons s p ih =>
    simp only [List.cons_append, stmts, bind_assoc]
    congr 1
    funext v
    exact ih v

/-- The value before the first statement is not used. -/
theorem stmts_of_ne_nil (calls : Calls) (opts : Options) (scope : ScopeId) (last last' : Value)
    {p : List Stmt} (hp : p ≠ []) :
    stmts calls opts scope last p = stmts calls opts scope last' p := by
  cases p with
  | nil => exact absurd rfl hp
  | cons s p => rfl

end Eval

/-- A program of two parts is run part by part. -/
theorem Program.finish_run_append (setting : Setting) (p : Program) {q : Program} (hq : q ≠ [])
    (scope : ScopeId) (m : Machine) :
    (Program.run setting (p ++ q) scope).finish m =
      match (Program.run setting p scope).finish m with
      | (.value _, m') => (Program.run setting q scope).finish m'
      | (outcome, m') => (outcome, m') := by
  have hrun : Program.run setting (p ++ q) scope =
      Program.run setting p scope >>= fun _ => Program.run setting q scope := by
    unfold Program.run
    rw [Eval.stmts_append]
    congr 1
    funext v
    exact Eval.stmts_of_ne_nil _ _ _ _ _ hq
  rw [hrun]
  unfold EvalIn.finish EStateM.run
  rw [Eval.bind_apply]
  cases Program.run setting p scope m with
  | ok v m' => rfl
  | error e m' => cases e <;> rfl

/-- What the text behind the semicolon is, seen from the text in front: a program without
statements if and only if it is one by itself, and not a program with the same error up to lines. -/
theorem Program.ofText_feeds (k : Nat) (b : String) :
    (∀ q, ofText b = .ok q → ∃ q', ofText (feeds k ++ b) = .ok q' ∧ q'.unlined = q.unlined) ∧
      ∀ e, ofText b = .error e →
        ∃ e', ofText (feeds k ++ b) = .error e' ∧ e'.unlined = e.unlined := by
  have h := (Token.sameReading_feeds k b).ofText
  constructor
  · intro q hq
    rw [hq] at h
    cases hq' : ofText (feeds k ++ b) with
    | ok q' =>
      rw [hq'] at h
      exact ⟨q', rfl, (Except.ok.inj h).symm⟩
    | error e' =>
      rw [hq'] at h
      cases h
  · intro e he
    rw [he] at h
    cases he' : ofText (feeds k ++ b) with
    | ok q' =>
      rw [he'] at h
      cases h
    | error e' =>
      rw [he'] at h
      exact ⟨e', rfl, (Except.error.inj h).symm⟩

namespace Script

/-- A text that is a program, in front of a semicolon and any other text.  The other text is read
and run as it is by itself on the line that the first one ends on; if it is no program then
nothing is run. -/
theorem joined_runs_in_turn {a : String} {p : Program} (ha : Program.ofText a = .ok p)
    (b : String) :
    let behind := feeds (a.toList.count '\n') ++ b
    Program.ofText (a ++ ";" ++ b) = (Program.ofText behind).map (p ++ ·) ∧
      ∀ (setting : Setting) scope m,
        (∀ q, Program.ofText b = .ok q → q ≠ [] →
          runIn setting (a ++ ";" ++ b) scope m =
            match runIn setting a scope m with
            | (.value _, m') => runIn setting behind scope m'
            | (outcome, m') => (outcome, m')) ∧
        ∀ e, Program.ofText b = .error e → ∃ e', e'.unlined = e.unlined ∧
          Program.ofText behind = .error e' ∧
            runIn setting (a ++ ";" ++ b) scope m = (.failed e', m) := by
  intro behind
  have hjoined : Program.ofText (a ++ ";" ++ b) = (Program.ofText behind).map (p ++ ·) :=
    Program.ofText_joined ha b
  obtain ⟨hok, herror⟩ := Program.ofText_feeds (a.toList.count '\n') b
  refine ⟨hjoined, fun setting scope m => ⟨fun q hq hne => ?_, fun e he => ?_⟩⟩
  · obtain ⟨q', hq', hunlined⟩ := hok q hq
    have hne' : q' ≠ [] := by
      rintro rfl
      cases q with
      | nil => exact hne rfl
      | cons s q => cases hunlined
    have hbehind : Program.ofText behind = .ok q' := hq'
    rw [hbehind] at hjoined
    unfold runIn
    rw [hjoined, ha, hbehind]
    exact Program.finish_run_append setting p hne' scope m
  · obtain ⟨e', he', hunlined⟩ := herror e he
    have hbehind : Program.ofText behind = .error e' := he'
    refine ⟨e', hunlined, hbehind, ?_⟩
    rw [hbehind] at hjoined
    unfold runIn
    rw [hjoined]
    rfl

/-- What starts with a parenthesis is no call of what stands in front of the semicolon, and what is
no program keeps that from running. -/
theorem joined_runs_in_turn_printing :
    let start : Machine := { store := Store.pushGlobal {} }
    Program.ofText "print(\"a\")\n" = .ok [.expr (.call (.name "print" 1) [.string "a" 1] 1) 1] ∧
      Program.ofText "(missing)" = .ok [.expr (.name "missing" 1) 1] ∧
      Program.ofText ")" = .error (.parse (.unexpected .expression ⟨.rightParen, ")", 1⟩)) ∧
      runIn { depth := 2 } ("print(\"a\")\n" ++ ";" ++ "(missing)") 0 start =
        (.failed (.fault ⟨.undeclared "missing", 2⟩), { start with output := #["a"] }) ∧
      ∃ e, runIn { depth := 2 } ("print(\"a\")\n" ++ ";" ++ ")") 0 start = (.failed e, start) := by
  intro start
  have hfront : Program.ofText "print(\"a\")\n" =
      .ok [.expr (.call (.name "print" 1) [.string "a" 1] 1) 1] := by
    have htokens : Token.tokensOf "print(\"a\")\n" = .ok [⟨.identifier, "print", 1⟩,
        ⟨.leftParen, "(", 1⟩, ⟨.string, "a", 1⟩, ⟨.rightParen, ")", 1⟩, Token.endAt 2] := by
      decide +kernel
    exact Program.ofText_eq_ok htokens rfl
  have hmissing (source : String) (line : Nat) (hsource : Token.tokensOf source =
      .ok [⟨.leftParen, "(", line⟩, ⟨.identifier, "missing", line⟩, ⟨.rightParen, ")", line⟩,
        Token.endAt line]) : Program.ofText source = .ok [.expr (.name "missing" line) line] :=
    Program.ofText_eq_ok hsource rfl
  have hbehind := hmissing "(missing)" 1 (by decide +kernel)
  have hnone : Program.ofText ")" =
      .error (.parse (.unexpected .expression ⟨.rightParen, ")", 1⟩)) := by
    have htokens : Token.tokensOf ")" = .ok [⟨.rightParen, ")", 1⟩, Token.endAt 1] := by
      decide +kernel
    exact Program.ofText_eq_error htokens rfl
  have hruns := (joined_runs_in_turn hfront "(missing)").2 { depth := 2 } 0 start
  have hstays := (joined_runs_in_turn hfront ")").2 { depth := 2 } 0 start
  refine ⟨hfront, hbehind, hnone, ?_, ?_⟩
  · have hshown : runIn { depth := 2 } "print(\"a\")\n" 0 start =
        (.value .null, { start with output := #["a"] }) := by
      unfold runIn
      rw [hfront]
      rfl
    have hfed := hmissing (feeds 1 ++ "(missing)") 2 (by decide +kernel)
    have hcount : "print(\"a\")\n".toList.count '\n' = 1 := rfl
    rw [hruns.1 _ hbehind (by simp), hshown, hcount]
    dsimp only
    unfold runIn
    rw [hfed]
    rfl
  · obtain ⟨e, -, -, hrun⟩ := hstays.2 _ hnone
    exact ⟨e, hrun⟩

end Script

end ScopeScript
