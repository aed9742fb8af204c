import ScopeScript.Proofs.Grammar.Completeness

/-!
# Programs are exactly what the grammar spells

A statement that was torn off its call can be joined with the statement that the call was taken
for: what ends in an operand takes in what starts with `(`, at every level.  So wherever there
are statements there are greedy ones, which is what the parser reads.
-/

namespace ScopeScript.Grammar

open ScopeScript.Parser

/-! ## Joining -/

section Joining

variable {ts mid rest : List Token}

/-- An operand takes in an operand that starts with `(`, which is then a call of it. -/
theorem join_operand {e : Expr} (h : Spells mid (.expr .operand e) rest)
    (hp : (next mid).kind = .leftParen) {f : Expr} (hf : Spells ts (.expr .operand f) mid) :
    ∃ e', Spells ts (.expr .operand e') rest := by
  generalize hphrase : Phrase.expr .operand e = phrase at h
  induction h generalizing e with
  | primary h =>
    cases h with
    | name hk | number hk | string hk =>
      rw [next_cons, hk] at hp
      cases hp
    | group ho he hc => exact ⟨_, .call hf ho (.lastArgument he) hc⟩
  | dot _ ht hn ih =>
    obtain ⟨e', he'⟩ := ih hp hf rfl
    exact ⟨_, .dot he' ht hn⟩
  | index _ ho hk hc ih =>
    obtain ⟨e', he'⟩ := ih hp hf rfl
    exact ⟨_, .index he' ho hk hc⟩
  | call _ ho ha hc ih =>
    obtain ⟨e', he'⟩ := ih hp hf rfl
    exact ⟨_, .call he' ho ha hc⟩
  | _ => cases hphrase

/-- What extends objects and sums extends an expression on its right. -/
theorem extend_expression {e : Expr}
    (hext : ∀ us l, Spells us (.expr .objectLevel l) mid → EndsInOperand us mid →
      ∃ e', Spells us (.expr .expression e') rest)
    (h : Spells ts (.expr .expression e) mid) (hends : EndsInOperand ts mid) :
    ∃ e', Spells ts (.expr .expression e') rest := by
  generalize hphrase : Phrase.expr .expression e = phrase at h
  induction h generalizing e with
  | objectLevel h => exact hext _ _ h hends
  | assign hl ht hr _ ih =>
    have hsuffix := (List.suffix_cons _ _).trans hl.suffix
    have hright := hr.endsInOperand_or.resolve_right fun hbrace =>
      (hbrace.of_suffix hsuffix).not_endsInOperand hends
    obtain ⟨r', hr'⟩ := ih hext hright rfl
    exact ⟨_, .assign hl ht hr'⟩
  | _ => cases hphrase

theorem extend_sum {e : Expr}
    (hext : ∀ us l, Spells us (.expr .sum l) mid → ∃ e', Spells us (.expr .sum e') rest)
    (h : Spells ts (.expr .expression e) mid) (hends : EndsInOperand ts mid) :
    ∃ e', Spells ts (.expr .expression e') rest := by
  refine extend_expression (fun us l hl hends => ?_) h hends
  cases hl with
  | sum hl =>
    obtain ⟨e', he'⟩ := hext us l hl
    exact ⟨e', .objectLevel (.sum he')⟩
  | object _ hp hc =>
    exact absurd hends (EndsWith.closer hp.suffix hc).not_endsInOperand

theorem extend_product {e : Expr}
    (hext : ∀ us l, Spells us (.expr .product l) mid → ∃ e', Spells us (.expr .product e') rest)
    (h : Spells ts (.expr .expression e) mid) (hends : EndsInOperand ts mid) :
    ∃ e', Spells ts (.expr .expression e') rest := by
  refine extend_sum (fun us l hl => ?_) h hends
  cases hl with
  | product hl =>
    obtain ⟨e', he'⟩ := hext us l hl
    exact ⟨e', .product he'⟩
  | plus hl hk ht hop hr =>
    obtain ⟨r', hr'⟩ := hext _ _ hr
    exact ⟨_, .plus hl hk ht hop hr'⟩

theorem extend_operand {e : Expr}
    (hext : ∀ us l, Spells us (.expr .operand l) mid → ∃ e', Spells us (.expr .operand e') rest)
    (h : Spells ts (.expr .expression e) mid) (hends : EndsInOperand ts mid) :
    ∃ e', Spells ts (.expr .expression e') rest := by
  refine extend_product (fun us l hl => ?_) h hends
  cases hl with
  | operand hl =>
    obtain ⟨e', he'⟩ := hext us l hl
    exact ⟨e', .operand he'⟩
  | times hl hk ht hop hr =>
    obtain ⟨r', hr'⟩ := hext _ _ hr
    exact ⟨_, .times hl hk ht hop hr'⟩

variable {e : Expr} (h : Spells ts (.expr .expression e) mid) (hends : EndsInOperand ts mid)
  (hp : (next mid).kind = .leftParen)

include h hends hp

theorem join_product {e' : Expr} (h' : Spells mid (.expr .product e') rest) :
    ∃ e'', Spells ts (.expr .expression e'') rest := by
  generalize hphrase : Phrase.expr .product e' = phrase at h'
  induction h' generalizing e' with
  | operand h' => exact extend_operand (fun us l hl => join_operand h' hp hl) h hends
  | times hl hk ht hop hr ihl _ =>
    obtain ⟨e₁, h₁⟩ := ihl h hends hp rfl
    have hends₁ := (Spells.product hl).endsInOperand.of_suffix h.suffix
    exact extend_product (fun us l h => ⟨_, .times h hk ht hop hr⟩) h₁ hends₁
  | _ => cases hphrase

theorem join_sum {e' : Expr} (h' : Spells mid (.expr .sum e') rest) :
    ∃ e'', Spells ts (.expr .expression e'') rest := by
  generalize hphrase : Phrase.expr .sum e' = phrase at h'
  induction h' generalizing e' with
  | product h' => exact join_product h hends hp h'
  | plus hl hk ht hop hr ihl _ =>
    obtain ⟨e₁, h₁⟩ := ihl h hends hp rfl
    have hends₁ := hl.endsInOperand.of_suffix h.suffix
    exact extend_sum (fun us l h => ⟨_, .plus h hk ht hop hr⟩) h₁ hends₁
  | _ => cases hphrase

/-- An expression that ends in an operand takes in one that starts with `(`. -/
theorem join_expression {e' : Expr} (h' : Spells mid (.expr .expression e') rest) :
    ∃ e'', Spells ts (.expr .expression e'') rest := by
  have hsum {l : Expr} {us : List Token} (hl : Spells mid (.expr .objectLevel l) us) :
      Spells mid (.expr .sum l) us := by
    cases hl with
    | sum hl => exact hl
    | object ho _ _ =>
      rw [next_cons, ho] at hp
      cases hp
  cases h' with
  | objectLevel h' => exact join_sum h hends hp (hsum h')
  | assign hl ht hr =>
    obtain ⟨e₁, h₁⟩ := join_sum h hends hp (hsum hl)
    have hends₁ := (hsum hl).endsInOperand.of_suffix h.suffix
    exact extend_expression (fun us l h _ => ⟨_, .assign h ht hr⟩) h₁ hends₁

end Joining

/-! ## Greedy statements -/

section Greedy

variable {greedy : Bool} {ts mid rest : List Token}

/-- An expression in front of greedy statements takes in the call that it is torn off, if any. -/
theorem join_whole {e : Expr} {ss : List Stmt} (he : Spells ts (.expr .expression e) mid)
    (hss : Statements true mid ss rest) (hrest : (next rest).kind ≠ .leftParen) :
    ∃ e' us ss', Spells ts (.expr .expression e') us ∧ ¬ TearsCall ts us ∧
      Statements true us ss' rest := by
  by_cases htears : TearsCall ts mid
  · obtain ⟨hends, hp⟩ := htears
    -- the statements start with `(`, so there is a first one and it is an expression
    cases hss with
    | nil => exact absurd hp hrest
    | semicolon ht _ =>
      rw [next_cons, ht] at hp
      cases hp
    | @cons _ us _ s ss hs hss =>
      cases hs with
      | @declare _ _ _ constant hk _ | @declareAs _ _ _ _ _ constant _ hk _ _ _ =>
        rw [next_cons, hk] at hp
        cases constant <;> cases hp
      | function hk _ _ _ _ _ _ _ =>
        rw [next_cons, hk] at hp
        cases hp
      | expr he' hg =>
        obtain ⟨e'', he''⟩ := join_expression he hends hp he'
        refine ⟨e'', us, ss, he'', fun htears => hg rfl ⟨?_, htears.2⟩, hss⟩
        exact he'.endsInOperand_or.resolve_right fun hbrace =>
          (hbrace.of_suffix he.suffix).not_endsInOperand htears.1
  · exact ⟨e, mid, ss, he, htears, hss⟩

mutual

/-- A statement in front of greedy statements can be made greedy with them. -/
theorem Statement.join {ts mid rest : List Token} {s : Stmt} {ss : List Stmt}
    (h : Statement greedy ts s mid) (hss : Statements true mid ss rest)
    (hrest : (next rest).kind ≠ .leftParen) : ∃ ss', Statements true ts ss' rest := by
  match h with
  | .declare hk hn => exact ⟨_, .cons (.declare hk hn) hss⟩
  | .declareAs hk hn ht he _ =>
    obtain ⟨e', us, ss', he', htears, hss'⟩ := join_whole he hss hrest
    exact ⟨_, .cons (.declareAs hk hn ht he' fun _ => htears) hss'⟩
  | .function hk hn ho hp hc ho' hb hc' =>
    obtain ⟨body', hb'⟩ := hb.exists_greedy (by
      rw [next_cons, hc']
      decide)
    exact ⟨_, .cons (.function hk hn ho hp hc ho' hb' hc') hss⟩
  | .expr he _ =>
    obtain ⟨e', us, ss', he', htears, hss'⟩ := join_whole he hss hrest
    exact ⟨_, .cons (.expr he' fun _ => htears) hss'⟩

theorem Statements.exists_greedy {ts rest : List Token} {ss : List Stmt}
    (h : Statements greedy ts ss rest) (hrest : (next rest).kind ≠ .leftParen) :
    ∃ ss', Statements true ts ss' rest := by
  match h with
  | .nil => exact ⟨[], .nil⟩
  | .semicolon ht h =>
    obtain ⟨ss', h'⟩ := h.exists_greedy hrest
    exact ⟨ss', .semicolon ht h'⟩
  | .cons hs hss =>
    obtain ⟨ss', hss'⟩ := hss.exists_greedy hrest
    exact hs.join hss' hrest

end

mutual

theorem Statement.weaken {ts rest : List Token} {s : Stmt} (h : Statement greedy ts s rest) :
    Statement false ts s rest := by
  match h with
  | .declare hk hn => exact .declare hk hn
  | .declareAs hk hn ht he _ => exact .declareAs hk hn ht he nofun
  | .function hk hn ho hp hc ho' hb hc' => exact .function hk hn ho hp hc ho' hb.weaken hc'
  | .expr he _ => exact .expr he nofun

theorem Statements.weaken {ts rest : List Token} {ss : List Stmt}
    (h : Statements greedy ts ss rest) : Statements false ts ss rest := by
  match h with
  | .nil => exact .nil
  | .semicolon ht h => exact .semicolon ht h.weaken
  | .cons hs hss => exact .cons hs.weaken hss.weaken

end

end Greedy

/-! ## Programs -/

/-- The tokens of a program. -/
def beforeEnd (ts : List Token) : List Token := ts.takeWhile (!·.isEnd)

theorem beforeEnd_append {us rest : List Token} (hus : ∀ t ∈ us, t.kind ≠ .eof)
    (hrest : (next rest).kind = .eof) : beforeEnd (us ++ rest) = us := by
  have hnil : rest.takeWhile (!·.isEnd) = [] := by
    cases rest with
    | nil => rfl
    | cons t rest =>
      rw [next_cons] at hrest
      simp [Token.isEnd, hrest]
  unfold beforeEnd
  rw [List.takeWhile_append_of_pos, hnil, List.append_nil]
  intro t ht
  simpa [Token.isEnd] using hus t ht

theorem exists_rest (ts : List Token) :
    ∃ rest, ts = beforeEnd ts ++ rest ∧ (next rest).kind = .eof := by
  refine ⟨ts.dropWhile (!·.isEnd), List.takeWhile_append_dropWhile.symm, ?_⟩
  induction ts with
  | nil => rfl
  | cons t ts ih =>
    rw [List.dropWhile_cons]
    split
    · exact ih
    · next h => simpa [Token.isEnd] using h

theorem ofTokens_eq_ok_iff {ts : List Token} {p : Program} :
    Program.ofTokens ts = .ok p ↔ ∃ rest, program ts = .ok p rest := by
  unfold Program.ofTokens EStateM.run
  cases program ts with
  | ok q rest => simp
  | error e rest => simp

theorem ofTokens_eq_error_iff {ts : List Token} {e : ParseError} :
    Program.ofTokens ts = .error e ↔ ∃ rest, program ts = .error e rest := by
  unfold Program.ofTokens EStateM.run
  cases program ts with
  | ok q rest => simp
  | error e' rest => simp

/-- The parser reads the one program that the tokens before the first end token spell greedily. -/
theorem ofTokens_eq_ok_iff_spelled (ts : List Token) (p : Program) :
    Program.ofTokens ts = .ok p ↔ Statements true (beforeEnd ts) p [] := by
  rw [ofTokens_eq_ok_iff]
  constructor
  · rintro ⟨rest, h⟩
    obtain ⟨hss, hend⟩ := finds_program ts p rest h
    obtain ⟨us, rfl, hus, hs⟩ := hss.detached
    have := hs [] nofun
    rwa [List.append_nil, ← beforeEnd_append hus hend] at this
  · intro h
    obtain ⟨rest, hts, hend⟩ := exists_rest ts
    obtain ⟨us, hus, -, hs⟩ := h.detached
    rw [List.append_nil] at hus
    refine ⟨rest, ?_⟩
    rw [hts, hus]
    exact program_complete (hs rest (by rw [Fits, hend]; nofun)) hend

/-- Greedy statements in front of the end are the program. -/
theorem Statements.ofTokens {ts rest : List Token} {p : Program} (h : Statements true ts p [])
    (hrest : (next rest).kind = .eof) : Program.ofTokens (ts ++ rest) = .ok p := by
  obtain ⟨us, rfl, hus, -⟩ := h.detached
  rw [List.append_nil] at h ⊢
  rwa [ofTokens_eq_ok_iff_spelled, beforeEnd_append hus hrest]

/-- Tokens are a program exactly if those before the first end token are statements of the grammar,
and then they are the program that no call is torn in. -/
theorem ofTokens_exact (ts : List Token) :
    ((∃ p, Program.ofTokens ts = .ok p) ↔ ∃ p, Statements false (beforeEnd ts) p []) ∧
      ∀ p, Program.ofTokens ts = .ok p ↔ Statements true (beforeEnd ts) p [] := by
  refine ⟨⟨?_, ?_⟩, ofTokens_eq_ok_iff_spelled ts⟩
  · rintro ⟨p, h⟩
    exact ⟨p, ((ofTokens_eq_ok_iff_spelled ts p).1 h).weaken⟩
  · rintro ⟨p, h⟩
    obtain ⟨p', h'⟩ := h.exists_greedy (by decide)
    exact ⟨p', (ofTokens_eq_ok_iff_spelled ts p').2 h'⟩

end ScopeScript.Grammar
