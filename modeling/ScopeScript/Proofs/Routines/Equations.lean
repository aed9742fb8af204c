import ScopeScript.Proofs.Routines.Calls
import ScopeScript.Proofs.SyntaxErrors.Lookahead

/-!
# The recursion of the parser ends

`Routine.parser` gives the parsers of the routines.  They do what the steps of the routines say,
with themselves behind the calls (`parser_eq`), and no other parsers do (`parser_unique`): there is
no infinite chain of calls, so the answers follow from the steps alone.

    recursion_ends   what every parser leaves, and the calls on the way
-/

namespace ScopeScript.Parser

variable {α : Type} {ts : List Token}

/-! ## The parsers of the routines -/

namespace Routine

def parser : Parsers
  | primary => Parser.primary Parser.expression
  | suffixes e => sized fun n => Parser.suffixes Parser.expression n e
  | operand => sized fun n => Parser.operand n Parser.expression
  | factors left =>
    sized fun n => chain (sized fun m => Parser.operand m Parser.expression) isMultiplicative n left
  | multiplicative => Parser.multiplicative
  | terms left => sized fun n => chain Parser.multiplicative isAdditive n left
  | additive => Parser.additive
  | properties => sized fun n => Parser.properties Parser.expression n
  | objectLiteral => Parser.objectLiteral
  | expression => Parser.expression
  | arguments line => sized fun n => items Parser.expression .round line n
  | parameters line => sized fun n => items identifier .round line n
  | semicolons => skipSemicolons
  | statement => Parser.statement
  | statements inBlock => sized fun n => Parser.statements Parser.statement (ends inBlock) n
  | statementList => Parser.statementList
  | program => Parser.program

/-- The same parsers, with `n` rounds for every loop. -/
def bounded (n : Nat) : Parsers
  | suffixes e => Parser.suffixes Parser.expression n e
  | factors left => chain (parser operand) isMultiplicative n left
  | terms left => chain Parser.multiplicative isAdditive n left
  | properties => Parser.properties Parser.expression n
  | arguments line => items Parser.expression .round line n
  | parameters line => items identifier .round line n
  | statements inBlock => Parser.statements Parser.statement (ends inBlock) n
  | r => parser r

end Routine

theorem ends_eof (inBlock : Bool) : Routine.ends inBlock .eof = true := by
  cases inBlock <;> rfl

/-! ## Progress -/

theorem suffix_sized {p : Nat → Parser α} (h : ∀ n, Suffix (p n)) : Suffix (sized p) :=
  fun ts => h ts.length ts

theorem consumes_sized {p : Nat → Parser α} (h : ∀ n, Consumes (p n)) : Consumes (sized p) :=
  fun ts => h ts.length ts

theorem suffix_bounded (n : Nat) (r : Routine) : Suffix (r.bounded n) := by
  have he := suffix_expression
  cases r with
  | primary => exact suffix_primary he
  | suffixes e => exact suffix_suffixes he n e
  | operand => exact suffix_sized (suffix_operand he)
  | factors left => exact suffix_chain (suffix_sized (suffix_operand he)) _ n left
  | multiplicative => exact suffix_sized fun n => suffix_product (suffix_expressionAt n) n
  | terms left =>
    exact suffix_chain (suffix_sized fun n => suffix_product (suffix_expressionAt n) n) _ n left
  | additive => exact suffix_sized fun n => suffix_sum (suffix_expressionAt n) n
  | properties => exact suffix_properties he n
  | objectLiteral => exact suffix_sized fun n => suffix_objectLevel (suffix_expressionAt n) n
  | expression => exact he
  | arguments line => exact suffix_items he _ line n
  | parameters line => exact suffix_items suffix_identifier _ line n
  | semicolons => exact suffix_skipSemicolons
  | statement => exact suffix_statement
  | statements inBlock => exact suffix_statements suffix_statement _ n
  | statementList => exact suffix_sized fun n => suffix_block (suffix_statementAt n) n
  | program => exact suffix_sized fun n => suffix_statements (suffix_statementAt n) _ n

theorem steady_bounded (n : Nat) : Steady (Routine.bounded n) :=
  ⟨suffix_bounded n, consumes_statement⟩

/-! ## Bounds -/

theorem operand_bound {n : Nat} (hn : ts.length ≤ n) :
    operand n (expressionAt n) ts = Routine.parser .operand ts := by
  show SameAt ts _ (operand ts.length expression)
  exact operand_same (k := ts.length) (consumes_expressionAt n) (suffix_expressionAt n)
    (fun us hus => expressionAt_eq (by omega)) (Nat.le_refl _) hn (Nat.le_refl _)

theorem product_bound {n : Nat} (hn : ts.length ≤ n) :
    product n (expressionAt n) ts = multiplicative ts := by
  show SameAt ts _ (product ts.length (expressionAt ts.length))
  exact product_same (k := ts.length) (consumes_expressionAt n) (suffix_expressionAt n)
    (fun us hus => expressionAt_same (by omega) (by omega)) (Nat.le_refl _) hn (Nat.le_refl _)

/-- Enough rounds are as good as any number of them. -/
theorem bounded_eq {n : Nat} (r : Routine) (hn : ts.length ≤ n) :
    r.bounded n ts = r.parser ts := by
  have hlen := Nat.le_refl ts.length
  cases r with
  | suffixes e =>
    exact suffixes_same (k := ts.length) consumes_expression suffix_expression
      (fun _ _ => .refl _ _) e hlen hn hlen
  | factors left =>
    exact chain_same (suffix_sized (suffix_operand suffix_expression)) (fun _ _ => .refl _ _) _ left
      hlen hn hlen
  | terms left =>
    exact chain_same (suffix_bounded 0 .multiplicative) (fun _ _ => .refl _ _) _ left hlen hn hlen
  | properties =>
    exact properties_same (k := ts.length) suffix_expression (fun _ _ => .refl _ _) hlen hn hlen
  | arguments line =>
    exact items_same (k := ts.length + 1) consumes_expression (fun _ _ => .refl _ _) _ line
      (Nat.lt_succ_self _) hn hlen
  | parameters line =>
    exact items_same (k := ts.length + 1) consumes_identifier (fun _ _ => .refl _ _) _ line
      (Nat.lt_succ_self _) hn hlen
  | statements inBlock =>
    exact statements_same consumes_statement (ends_eof inBlock) (fun _ _ => .refl _ _) hn hlen
  | _ => rfl

/-! ## Equations -/

section Rounds

variable {c : Parsers}

theorem commaList_steps {item : Parser α} {b : Bracket} {line n : Nat} {s : Steps (List α)}
    (h : SameAt ts (items item b line n) (s.parser c)) :
    SameAt ts (commaList item b line n) ((Steps.orEmpty b s).parser c) := by
  refine .peekKind_bind ?_
  dsimp only
  split
  · rfl
  · exact h

theorem items_steps {item : Parser α} {b : Bracket} {line n : Nat} {first : Steps α}
    {others : Steps (List α)} (hfirst : first.parser c = item)
    (hothers : others.parser c = items item b line n) :
    SameAt ts (items item b line (n + 1)) ((Steps.item b line first others).parser c) := by
  refine .peekKind_bind ?_
  dsimp only
  split
  · rfl
  · refine .bind (congrFun hfirst.symm ts) fun x rest _ => .peekKind_bind ?_
    dsimp only
    split
    · exact .advance_bind (.bind (congrFun hothers.symm _) fun _ _ _ => .refl _ _)
    · split
      · rfl
      · split
        · rfl
        · rfl

theorem chain_steps {level : Parser Expr} {accepts : BinaryOp → Bool} {n : Nat} {left : Expr}
    {first : Steps Expr} {others : Expr → Steps Expr} (hfirst : first.parser c = level)
    (hothers : ∀ e, (others e).parser c = chain level accepts n e) :
    SameAt ts (chain level accepts (n + 1) left)
      ((Steps.link first accepts left others).parser c) := by
  refine .peek_bind ?_
  dsimp only
  cases operatorOf? (next ts) with
  | none => rfl
  | some op =>
    dsimp only
    split
    · exact .advance_bind (.bind (congrFun hfirst.symm _) fun e rest _ =>
        congrFun (hothers _).symm rest)
    · rfl

theorem primary_steps (n : Nat) :
    SameAt ts (primary expression) (Routine.primary.steps.parser (Routine.bounded n)) := by
  refine .peek_bind ?_
  dsimp only
  cases (next ts).kind with
  | number =>
    dsimp only
    cases Numeral.read? (next ts).text <;> rfl
  | _ => rfl

theorem suffixes_steps (n : Nat) (e : Expr) :
    SameAt ts (suffixes expression (n + 1) e)
      ((Routine.suffixes e).steps.parser (Routine.bounded n)) := by
  refine .peek_bind ?_
  dsimp only
  cases (next ts).kind with
  | leftParen =>
    exact .advance_bind (.bind ((commaList_steps (.refl _ _)).within _ _) fun _ _ _ => .refl _ _)
  | _ => rfl

theorem properties_steps (n : Nat) :
    SameAt ts (properties expression (n + 1))
      (Routine.properties.steps.parser (Routine.bounded n)) := by
  refine .peek_bind ?_
  dsimp only
  split
  · rfl
  · refine .bind (.refl _ _) fun key rest _ => .peekKind_bind ?_
    dsimp only
    split
    · rfl
    · split
      · rfl
      · refine .bind (.refl _ _) fun _ rest _ => .bind (.refl _ _) fun value rest _ =>
          .peekKind_bind ?_
        dsimp only
        split
        · rfl
        · split
          · rfl
          · rfl

theorem statements_steps (n : Nat) (inBlock : Bool) :
    SameAt ts (statements statement (Routine.ends inBlock) (n + 1))
      ((Routine.statements inBlock).steps.parser (Routine.bounded n)) := by
  refine .skipSemicolons_bind (.peekKind_bind ?_)
  dsimp only
  split
  · rfl
  · rfl

theorem semicolons_steps (n : Nat) :
    skipSemicolons ts = Routine.semicolons.steps.parser (Routine.bounded n) ts := by
  cases ts with
  | nil => rfl
  | cons t ts =>
    show EStateM.Result.ok () ((t :: ts).dropWhile (·.kind == .semicolon)) =
      Steps.parser (Routine.bounded n) (if t.kind = .semicolon then _ else _) (t :: ts)
    by_cases hk : t.kind = .semicolon
    · rw [if_pos hk, List.dropWhile_cons_of_pos (by simp [hk])]
      rfl
    · rw [if_neg hk, List.dropWhile_cons_of_neg (by simp [hk])]
      rfl

theorem multiplicative_steps :
    multiplicative ts = Routine.multiplicative.steps.parser (Routine.bounded ts.length) ts := by
  have hs := suffix_operand (suffix_expressionAt ts.length) ts.length
  have h : SameAt ts (product ts.length (expressionAt ts.length)) (do
      let e ← Routine.parser .operand
      chain (Routine.parser .operand) isMultiplicative ts.length e) := by
    refine .bind (operand_bound (Nat.le_refl _)) fun e rest hr => ?_
    have hle := hs.length_le hr
    exact chain_same hs (fun us hus => operand_bound hus) _ e hle hle hle
  exact h

theorem additive_steps :
    additive ts = Routine.additive.steps.parser (Routine.bounded ts.length) ts := by
  have hs := suffix_product (suffix_expressionAt ts.length) ts.length
  have h : SameAt ts (sum ts.length (expressionAt ts.length)) (do
      let e ← multiplicative
      chain multiplicative isAdditive ts.length e) := by
    refine .bind (product_bound (Nat.le_refl _)) fun e rest hr => ?_
    have hle := hs.length_le hr
    exact chain_same hs (fun us hus => product_bound hus) _ e hle hle hle
  exact h

theorem objectLiteral_steps :
    objectLiteral ts = Routine.objectLiteral.steps.parser (Routine.bounded ts.length) ts := by
  have h : SameAt ts (objectLevel ts.length (expressionAt ts.length))
      (Routine.objectLiteral.steps.parser (Routine.bounded ts.length)) := by
    refine .peek_bind ?_
    dsimp only
    split
    · have hle := (List.tail_suffix ts).length_le
      refine .advance_bind (SameAt.within (.bind ?_ fun _ _ _ => .refl _ _) _ _)
      exact properties_same (k := ts.length) (suffix_expressionAt _)
        (fun us hus => expressionAt_eq (by omega)) hle hle hle
    · rfl
  exact h

theorem expression_steps :
    expression ts = Routine.expression.steps.parser (Routine.bounded ts.length) ts := by
  have hobject : objectLevel ts.length expression ts = objectLiteral ts :=
    objectLevel_same (k := ts.length) consumes_expression suffix_expression
      (fun us hus => (expressionAt_eq (by omega)).symm) (Nat.le_refl _) (Nat.le_refl _)
      (Nat.le_refl _)
  have h : SameAt ts (assignment ts.length expression)
      (Routine.expression.steps.parser (Routine.bounded ts.length)) := by
    refine .bind hobject fun left rest _ => .peek_bind ?_
    dsimp only
    split
    · rfl
    · rfl
  exact (expression_eq ts).trans h

theorem declaration_steps {n : Nat} (constant : Bool) (hn : ts.length ≤ n) :
    SameAt ts (declaration n constant) (do
      let line := (← peek).line
      advance
      (Steps.declaration constant line).parser (Routine.bounded n)) := by
  refine .peek_bind (.advance_bind (.bind (.refl _ _) fun name rest hr => .peekKind_bind ?_))
  have hlt := consumes_identifier _ _ _ hr
  dsimp only
  split
  · have htail := (List.tail_suffix rest).length_le
    have hle := (List.tail_suffix ts).length_le
    exact .advance_bind (.bind (expressionAt_eq (by omega)) fun _ _ _ => .refl _ _)
  · rfl

theorem block_steps {n : Nat} (hn : ts.length ≤ n) :
    block n statement ts = statementList ts :=
  block_same (k := ts.length) consumes_statement (fun us hus => (statementAt_eq (by omega)).symm)
    (Nat.le_refl _) hn (Nat.le_refl _)

theorem function_steps {n : Nat} (hn : ts.length ≤ n) :
    SameAt ts (function n statement) (do
      let line := (← peek).line
      advance
      (Steps.function line).parser (Routine.bounded n)) := by
  refine .peek_bind (.advance_bind (.bind (.refl _ _) fun name rest₁ h₁ =>
    .bind (.refl _ _) fun opener rest₂ h₂ =>
      .bind (SameAt.within (commaList_steps (.refl _ _)) _ _) fun params rest₃ h₃ =>
        .bind (block_steps ?_) fun _ _ _ => .refl _ _))
  have htail := (List.tail_suffix ts).length_le
  have hle₁ := suffix_identifier.length_le h₁
  have hle₂ := (suffix_expect _ _).length_le h₂
  have hle₃ := ((suffix_commaList suffix_identifier _ _ n).within _ _).length_le h₃
  omega

theorem statement_steps :
    statement ts = Routine.statement.steps.parser (Routine.bounded ts.length) ts := by
  have h : SameAt ts (statementWith ts.length statement)
      (Routine.statement.steps.parser (Routine.bounded ts.length)) := by
    have hdeclaration := @declaration_steps ts ts.length
    have hfunction := @function_steps ts ts.length
    refine .peek_bind ?_
    dsimp only
    cases (next ts).kind with
    | letKeyword => exact hdeclaration false (Nat.le_refl _)
    | constKeyword => exact hdeclaration true (Nat.le_refl _)
    | fnKeyword => exact hfunction (Nat.le_refl _)
    | _ => rfl
  exact (statement_eq ts).trans h

theorem statementList_steps :
    statementList ts = Routine.statementList.steps.parser (Routine.bounded ts.length) ts := by
  have h : SameAt ts (block ts.length statement)
      (Routine.statementList.steps.parser (Routine.bounded ts.length)) :=
    .refl _ _
  exact (block_steps (Nat.le_refl _)).symm.trans h

/-- One round more than the tokens need is a round and then the calls that follow. -/
theorem bounded_steps (r : Routine) (ts : List Token) :
    r.bounded (ts.length + 1) ts = r.steps.parser (Routine.bounded ts.length) ts := by
  cases r with
  | primary => exact primary_steps _
  | suffixes e => exact suffixes_steps _ e
  | operand => rfl
  | factors left =>
    have hlink : SameAt ts (chain (Routine.parser .operand) isMultiplicative (ts.length + 1) left)
        ((Steps.link (.call .operand) isMultiplicative left fun e => .call (.factors e)).parser
          (Routine.bounded ts.length)) := chain_steps rfl fun _ => rfl
    exact hlink
  | multiplicative => exact multiplicative_steps
  | terms left =>
    have hlink : SameAt ts (chain Parser.multiplicative isAdditive (ts.length + 1) left)
        ((Steps.link (.call .multiplicative) isAdditive left fun e => .call (.terms e)).parser
          (Routine.bounded ts.length)) := chain_steps rfl fun _ => rfl
    exact hlink
  | additive => exact additive_steps
  | properties => exact properties_steps _
  | objectLiteral => exact objectLiteral_steps
  | expression => exact expression_steps
  | arguments line => exact items_steps rfl rfl
  | parameters line => exact items_steps rfl rfl
  | semicolons => exact semicolons_steps _
  | statement => exact statement_steps
  | statements inBlock => exact statements_steps _ inBlock
  | statementList => exact statementList_steps
  | program => exact program_eq ts

/-- The parsers do what the steps of the routines say, with themselves behind the calls. -/
theorem parser_eq (r : Routine) (ts : List Token) :
    r.parser ts = r.steps.parser Routine.parser ts := by
  have hsteady := steady_bounded ts.length
  rw [← bounded_eq r (Nat.le_succ ts.length), bounded_steps]
  refine Steps.parser_congr _ fun r' us hmem => ?_
  exact bounded_eq r' ((steps_forward hsteady r).calls ts r' us hmem).length_le

end Rounds

/-! ## Calls -/

/-- The first routine on its tokens calls the second one on its. -/
def Calls (a b : Routine × List Token) : Prop := b ∈ a.1.steps.calls Routine.parser a.2

theorem parser_steady : Steady Routine.parser := by
  refine ⟨fun r ts => ?_, consumes_statement⟩
  rw [← bounded_eq r (Nat.le_refl ts.length)]
  exact suffix_bounded ts.length r ts

theorem calls_descend {r r' : Routine} {us : List Token} (h : Calls (r, ts) (r', us)) :
    us <:+ ts ∧ (us.length < ts.length ∨ r'.rank < r.rank) :=
  ⟨(steps_forward parser_steady r).calls ts r' us h, steps_descend parser_steady r ts r' us h⟩

example :
    let a : Token := ⟨.identifier, "a", 1⟩
    let dot : Token := ⟨.dot, ".", 1⟩
    let b : Token := ⟨.identifier, "b", 2⟩
    Routine.operand.steps.calls Routine.parser [a, dot, b] =
        [(.primary, [a, dot, b]), (.suffixes (.name "a" 1), [dot, b])] ∧
      (Routine.suffixes (.name "a" 1)).steps.calls Routine.parser [dot, b] =
        [(.suffixes (.dot (.name "a" 1) (.name "b" 2) 1), [])] :=
  ⟨rfl, rfl⟩

/-- There is no infinite chain of calls. -/
theorem calls_wellFounded : WellFounded fun a b => Calls b a := by
  let measure (a : Routine × List Token) : Nat × Nat := (a.2.length, a.1.rank)
  refine Subrelation.wf (r := InvImage (Prod.Lex (· < ·) (· < ·)) measure) ?_
    (InvImage.wf measure (Prod.lex ⟨_, Nat.lt_wfRel.wf⟩ ⟨_, Nat.lt_wfRel.wf⟩).wf)
  rintro ⟨r', us⟩ ⟨r, ts⟩ h
  obtain ⟨hsuffix, hlt | hrank⟩ := calls_descend h
  · exact .left _ _ hlt
  · rcases Nat.lt_or_eq_of_le hsuffix.length_le with hlt | heq
    · exact .left _ _ hlt
    · show Prod.Lex _ _ (us.length, r'.rank) (ts.length, r.rank)
      rw [heq]
      exact .right _ hrank

/-- The steps of the routines leave no choice of what the parsers do. -/
theorem parser_unique {c : Parsers} (h : ∀ r ts, c r ts = r.steps.parser c ts) :
    c = Routine.parser := by
  have hcall (a : Routine × List Token) : Routine.parser a.1 a.2 = c a.1 a.2 := by
    induction a using calls_wellFounded.induction with
    | _ a ih =>
      obtain ⟨r, ts⟩ := a
      show Routine.parser r ts = c r ts
      rw [h, parser_eq]
      exact Steps.parser_congr _ fun r' us hmem => ih (r', us) hmem
  funext r ts
  exact (hcall (r, ts)).symm

/-! ## The end -/

/-- A program stops at the first end token or where the tokens end. -/
theorem program_stops {p : Program} {rest : List Token} (h : program ts = .ok p rest) :
    ∃ read, ts = read ++ rest ∧ (∀ t ∈ read, t.kind ≠ .eof) ∧
      (rest = [] ∨ ∃ t us, rest = t :: us ∧ t.kind = .eof) := by
  obtain ⟨read, hread⟩ := sees_program ts
  have hsplit := hread.split
  rw [h] at hsplit
  refine ⟨read, hsplit, hread.ne_eof, ?_⟩
  have hend := (Grammar.finds_program ts p rest h).2
  cases rest with
  | nil => exact .inl rfl
  | cons t us => exact .inr ⟨t, us, rfl, hend⟩

/-- All parsers leave a suffix of their tokens, and less than all of them where they read something
that cannot be empty.  They are the only solution of the equations of the routines.  Every call on
the way, the next round of a loop included, is made on fewer tokens or goes down a rank, so no chain
of calls goes on forever. -/
theorem recursion_ends :
    (Suffix program ∧ Suffix statement ∧ Suffix statementList ∧ Suffix expression ∧
      Suffix objectLiteral ∧ Suffix additive ∧ Suffix multiplicative) ∧
    (Consumes statement ∧ Consumes statementList ∧ Consumes expression ∧
      Consumes objectLiteral ∧ Consumes additive ∧ Consumes multiplicative) ∧
    (∀ ts p rest, program ts = .ok p rest → ∃ read, ts = read ++ rest ∧
      (∀ t ∈ read, t.kind ≠ .eof) ∧ (rest = [] ∨ ∃ t us, rest = t :: us ∧ t.kind = .eof)) ∧
    (∀ r ts, Routine.parser r ts = r.steps.parser Routine.parser ts) ∧
    (∀ c : Parsers, (∀ r ts, c r ts = r.steps.parser c ts) → c = Routine.parser) ∧
    (∀ r ts r' us, Calls (r, ts) (r', us) →
      us <:+ ts ∧ (us.length < ts.length ∨ r'.rank < r.rank)) ∧
    WellFounded fun a b => Calls b a := by
  have hsuffix := parser_steady.suffix
  refine ⟨⟨hsuffix .program, suffix_statement, hsuffix .statementList, suffix_expression,
    hsuffix .objectLiteral, hsuffix .additive, hsuffix .multiplicative⟩, ⟨consumes_statement, ?_,
    consumes_expression, ?_, ?_, ?_⟩, fun _ _ _ => program_stops, parser_eq,
    fun _ => parser_unique, fun _ _ _ _ => calls_descend, calls_wellFounded⟩
  · exact consumes_sized fun n => consumes_block (suffix_statementAt n) n
  · exact consumes_sized fun n => consumes_objectLevel (suffix_expressionAt n) n
  · exact consumes_sized fun n => consumes_sum (suffix_expressionAt n) n
  · exact consumes_sized fun n => consumes_product (suffix_expressionAt n) n

end ScopeScript.Parser
