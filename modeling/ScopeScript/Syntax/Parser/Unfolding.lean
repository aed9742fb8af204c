import ScopeScript.Syntax.Parser.Progress

/-!
# The parsers as equations

The bound that the parsers carry never matters as long as it is at least the number of tokens:
`expressionAt n ts = expression ts` and `statementAt n ts = statement ts` for all such `n`.  So
`expression`, `statement` and the others satisfy the equations of their grammar, with themselves
in place of the parsers of smaller parts.
-/

namespace ScopeScript.Parser

variable {α β : Type}

/-! ## Equal runs -/

/-- Two parsers do the same on `ts`. -/
def SameAt (ts : List Token) (p q : Parser α) : Prop := p ts = q ts

/-- Two parsers do the same on all lists of fewer than `k` tokens. -/
def SameBelow (k : Nat) (p q : Parser α) : Prop := ∀ ts, ts.length < k → SameAt ts p q

theorem SameAt.refl (ts : List Token) (p : Parser α) : SameAt ts p p := rfl

theorem SameAt.bind {ts : List Token} {p q : Parser α} {f g : α → Parser β}
    (hp : SameAt ts p q) (hf : ∀ a rest, p ts = .ok a rest → SameAt rest (f a) (g a)) :
    SameAt ts (p >>= f) (q >>= g) := by
  unfold SameAt at *
  cases h : p ts with
  | ok a rest => rw [bind_of_ok h, bind_of_ok (hp ▸ h), hf a rest h]
  | error e rest => rw [bind_of_error h, bind_of_error (hp ▸ h)]

theorem SameAt.peek_bind {ts : List Token} {f g : Token → Parser α}
    (h : SameAt ts (f (next ts)) (g (next ts))) : SameAt ts (peek >>= f) (peek >>= g) := h

theorem SameAt.peekKind_bind {ts : List Token} {f g : TokenKind → Parser α}
    (h : SameAt ts (f (next ts).kind) (g (next ts).kind)) :
    SameAt ts (peekKind >>= f) (peekKind >>= g) := h

theorem SameAt.advance_bind {ts : List Token} {f g : Unit → Parser α}
    (h : SameAt ts.tail (f ()) (g ())) : SameAt ts (advance >>= f) (advance >>= g) := h

theorem SameAt.within {ts : List Token} {p q : Parser α} (h : SameAt ts p q) (b : Bracket)
    (line : Nat) : SameAt ts (within b line p) (within b line q) := by
  unfold SameAt at *
  rw [within_apply, within_apply, h]

/-! ## Lists -/

theorem items_same {item item' : Parser α} (hs : Consumes item) {k : Nat}
    (h : SameBelow k item item') (b : Bracket) (line : Nat) {m n : Nat} {ts : List Token}
    (hk : ts.length < k) (hm : ts.length ≤ m) (hn : ts.length ≤ n) :
    SameAt ts (items item b line m) (items item' b line n) := by
  induction m generalizing n ts with
  | zero =>
    cases ts with
    | cons t ts => simp at hm
    | nil =>
      cases n with
      | zero => exact .refl _ _
      | succ n => rfl
  | succ m ih =>
    cases n with
    | zero =>
      cases ts with
      | cons t ts => simp at hn
      | nil => rfl
    | succ n =>
      refine .peekKind_bind ?_
      split
      · exact .refl _ _
      · refine (h ts hk).bind fun a rest hr => ?_
        have hlt := hs ts a rest hr
        refine .peekKind_bind ?_
        split
        · refine .advance_bind (.bind (ih ?_ ?_ ?_) fun _ _ _ => .refl _ _)
          all_goals
            have := (List.tail_suffix rest).length_le
            omega
        · exact .refl _ _

theorem commaList_same {item item' : Parser α} (hs : Consumes item) {k : Nat}
    (h : SameBelow k item item') (b : Bracket) (line : Nat) {m n : Nat} {ts : List Token}
    (hk : ts.length < k) (hm : ts.length ≤ m) (hn : ts.length ≤ n) :
    SameAt ts (commaList item b line m) (commaList item' b line n) := by
  refine .peekKind_bind ?_
  split
  · exact .refl _ _
  · exact items_same hs h b line hk hm hn

/-! ## Expressions -/

section Levels

variable {inner inner' : Parser Expr} {k : Nat}

theorem group_same (h : SameBelow k inner inner') (b : Bracket) (line : Nat) {ts : List Token}
    (hk : ts.length < k) :
    SameAt ts
      (within b line do
        let e ← inner
        close b line
        return e)
      (within b line do
        let e ← inner'
        close b line
        return e) :=
  ((h ts hk).bind fun _ _ _ => .refl _ _).within _ _

theorem primary_same (h : SameBelow k inner inner') {ts : List Token} (hk : ts.length ≤ k) :
    SameAt ts (primary inner) (primary inner') := by
  refine .peek_bind ?_
  split
  · exact .refl _ _
  · exact .refl _ _
  · exact .refl _ _
  · next hp =>
    have := length_tail_lt ts (by simp [hp])
    exact .advance_bind (group_same h _ _ (by omega))
  · exact .refl _ _

theorem suffixes_same (hc : Consumes inner) (hs : Suffix inner) (h : SameBelow k inner inner')
    {m n : Nat} (e : Expr) {ts : List Token} (hk : ts.length ≤ k) (hm : ts.length ≤ m)
    (hn : ts.length ≤ n) : SameAt ts (suffixes inner m e) (suffixes inner' n e) := by
  induction m generalizing n ts e with
  | zero =>
    cases ts with
    | cons t ts => simp at hm
    | nil =>
      cases n with
      | zero => exact .refl _ _
      | succ n => rfl
  | succ m ih =>
    cases n with
    | zero =>
      cases ts with
      | cons t ts => simp at hn
      | nil => rfl
    | succ n =>
      refine .peek_bind ?_
      split
      · next hp =>
        have hlt := length_tail_lt ts (by simp [hp])
        refine .advance_bind (.peek_bind (.bind (.refl _ _) fun _ rest hr => ih _ ?_ ?_ ?_))
        all_goals
          have := consumes_identifier _ _ _ hr
          omega
      · next hp =>
        have hlt := length_tail_lt ts (by simp [hp])
        refine .advance_bind (.bind (group_same h _ _ (by omega)) fun _ rest hr => ih _ ?_ ?_ ?_)
        all_goals
          have := (suffix_group hs _ _).length_le hr
          omega
      · next hp =>
        have hlt := length_tail_lt ts (by simp [hp])
        refine .advance_bind (.bind ((commaList_same hc h _ _ ?_ ?_ ?_).within _ _)
          fun _ rest hr => ih _ ?_ ?_ ?_)
        · omega
        · omega
        · omega
        all_goals
          have := ((suffix_commaList hs _ _ _).within _ _).length_le hr
          omega
      · exact .refl _ _

theorem operand_same (hc : Consumes inner) (hs : Suffix inner) (h : SameBelow k inner inner')
    {m n : Nat} {ts : List Token} (hk : ts.length ≤ k) (hm : ts.length ≤ m)
    (hn : ts.length ≤ n) : SameAt ts (operand m inner) (operand n inner') := by
  refine (primary_same h hk).bind fun e rest hr => ?_
  have := consumes_primary hs _ _ _ hr
  exact suffixes_same hc hs h e (by omega) (by omega) (by omega)

theorem chain_same {level level' : Parser Expr} (hs : Suffix level) {b : Nat}
    (h : ∀ ts : List Token, ts.length ≤ b → SameAt ts level level') (accepts : BinaryOp → Bool)
    {m n : Nat} (e : Expr) {ts : List Token} (hb : ts.length ≤ b) (hm : ts.length ≤ m)
    (hn : ts.length ≤ n) :
    SameAt ts (chain level accepts m e) (chain level' accepts n e) := by
  induction m generalizing n ts e with
  | zero =>
    cases ts with
    | cons t ts => simp at hm
    | nil =>
      cases n with
      | zero => exact .refl _ _
      | succ n => rfl
  | succ m ih =>
    cases n with
    | zero =>
      cases ts with
      | cons t ts => simp at hn
      | nil => rfl
    | succ n =>
      refine .peek_bind ?_
      split
      · next op hop =>
        split
        · have hlt : ts.tail.length < ts.length := by
            refine length_tail_lt ts fun he => ?_
            simp [operatorOf?, he] at hop
          refine .advance_bind (.bind (h _ (by omega)) fun _ rest hr => ih _ ?_ ?_ ?_)
          all_goals
            have := hs.length_le hr
            omega
        · exact .refl _ _
      · exact .refl _ _

theorem product_same (hc : Consumes inner) (hs : Suffix inner) (h : SameBelow k inner inner')
    {m n : Nat} {ts : List Token} (hk : ts.length ≤ k) (hm : ts.length ≤ m)
    (hn : ts.length ≤ n) : SameAt ts (product m inner) (product n inner') := by
  refine (operand_same hc hs h hk hm hn).bind fun e rest hr => ?_
  have hle := (suffix_operand hs m).length_le hr
  exact chain_same (suffix_operand hs m)
    (fun us (hus : us.length ≤ ts.length) =>
      operand_same hc hs h (by omega) (by omega) (by omega)) _ e hle (by omega) (by omega)

theorem sum_same (hc : Consumes inner) (hs : Suffix inner) (h : SameBelow k inner inner')
    {m n : Nat} {ts : List Token} (hk : ts.length ≤ k) (hm : ts.length ≤ m)
    (hn : ts.length ≤ n) : SameAt ts (sum m inner) (sum n inner') := by
  refine (product_same hc hs h hk hm hn).bind fun e rest hr => ?_
  have hle := (suffix_product hs m).length_le hr
  exact chain_same (suffix_product hs m)
    (fun us (hus : us.length ≤ ts.length) =>
      product_same hc hs h (by omega) (by omega) (by omega)) _ e hle (by omega) (by omega)

theorem properties_same (hs : Suffix inner) (h : SameBelow k inner inner') {m n : Nat}
    {ts : List Token} (hk : ts.length ≤ k) (hm : ts.length ≤ m) (hn : ts.length ≤ n) :
    SameAt ts (properties inner m) (properties inner' n) := by
  induction m generalizing n ts with
  | zero =>
    cases ts with
    | cons t ts => simp at hm
    | nil =>
      cases n with
      | zero => exact .refl _ _
      | succ n => rfl
  | succ m ih =>
    cases n with
    | zero =>
      cases ts with
      | cons t ts => simp at hn
      | nil => rfl
    | succ n =>
      refine .peek_bind ?_
      split
      · exact .refl _ _
      · refine .bind (.refl _ _) fun key rest hr => ?_
        have hlt := consumes_identifier _ _ _ hr
        have htl := (List.tail_suffix rest).length_le
        refine .peekKind_bind ?_
        split
        · exact .advance_bind (.bind (ih (by omega) (by omega) (by omega)) fun _ _ _ => .refl _ _)
        · split
          · exact .bind (ih (by omega) (by omega) (by omega)) fun _ _ _ => .refl _ _
          · refine .bind (.refl _ _) fun _ rest₁ hr₁ => ?_
            have hlt₁ := (suffix_expect _ _).length_le hr₁
            refine .bind (h _ (by omega)) fun _ rest₂ hr₂ => ?_
            have hlt₂ := hs.length_le hr₂
            have htl₂ := (List.tail_suffix rest₂).length_le
            refine .peekKind_bind ?_
            split
            · exact .advance_bind
                (.bind (ih (by omega) (by omega) (by omega)) fun _ _ _ => .refl _ _)
            · split
              · exact .bind (ih (by omega) (by omega) (by omega)) fun _ _ _ => .refl _ _
              · exact .refl _ _

theorem objectLevel_same (hc : Consumes inner) (hs : Suffix inner)
    (h : SameBelow k inner inner') {m n : Nat} {ts : List Token} (hk : ts.length ≤ k)
    (hm : ts.length ≤ m) (hn : ts.length ≤ n) :
    SameAt ts (objectLevel m inner) (objectLevel n inner') := by
  refine .peek_bind ?_
  split
  · have htl := (List.tail_suffix ts).length_le
    exact .advance_bind (SameAt.within
      (.bind (properties_same hs h (by omega) (by omega) (by omega)) fun _ _ _ => .refl _ _) _ _)
  · exact sum_same hc hs h hk hm hn

theorem assignment_same (hc : Consumes inner) (hs : Suffix inner)
    (h : SameBelow k inner inner') {m n : Nat} {ts : List Token} (hk : ts.length ≤ k)
    (hm : ts.length ≤ m) (hn : ts.length ≤ n) :
    SameAt ts (assignment m inner) (assignment n inner') := by
  refine (objectLevel_same hc hs h hk hm hn).bind fun e rest hr => ?_
  have hlt := consumes_objectLevel hs m _ _ _ hr
  refine .peek_bind ?_
  split
  · have htl := (List.tail_suffix rest).length_le
    exact .advance_bind (.bind (h _ (by omega)) fun _ _ _ => .refl _ _)
  · exact .refl _ _

end Levels

/-- The bound does not matter. -/
theorem expressionAt_same {m n : Nat} {ts : List Token} (hm : ts.length ≤ m)
    (hn : ts.length ≤ n) : SameAt ts (expressionAt m) (expressionAt n) := by
  induction m generalizing n ts with
  | zero =>
    cases ts with
    | cons t ts => simp at hm
    | nil =>
      cases n with
      | zero => exact .refl _ _
      | succ n => rfl
  | succ m ih =>
    cases n with
    | zero =>
      cases ts with
      | cons t ts => simp at hn
      | nil => rfl
    | succ n =>
      refine assignment_same (k := ts.length) (consumes_expressionAt m) (suffix_expressionAt m)
        (fun us hus => ih (by omega) (by omega)) (Nat.le_refl _) hm hn

theorem sized_apply (p : Nat → Parser α) (ts : List Token) : sized p ts = p ts.length ts := rfl

theorem expressionAt_eq {n : Nat} {ts : List Token} (hn : ts.length ≤ n) :
    expressionAt n ts = expression ts :=
  expressionAt_same hn (Nat.le_refl _)

theorem suffix_expression : Suffix expression := fun ts => suffix_expressionAt ts.length ts

theorem consumes_expression : Consumes expression := fun ts => consumes_expressionAt ts.length ts

/-- An expression is an assignment of expressions. -/
theorem expression_eq (ts : List Token) :
    expression ts = assignment ts.length expression ts := by
  rw [← expressionAt_eq (Nat.le_succ ts.length)]
  exact assignment_same (k := ts.length) (consumes_expressionAt _) (suffix_expressionAt _)
    (fun us hus => expressionAt_eq (Nat.le_of_lt hus)) (Nat.le_refl _) (Nat.le_succ _)
    (Nat.le_refl _)

/-! ## Statements -/

theorem declaration_same {m n : Nat} (constant : Bool) {ts : List Token} (hm : ts.length ≤ m)
    (hn : ts.length ≤ n) : SameAt ts (declaration m constant) (declaration n constant) := by
  have htl := (List.tail_suffix ts).length_le
  refine .peek_bind (.advance_bind (.bind (.refl _ _) fun name rest hr => ?_))
  have hlt := consumes_identifier _ _ _ hr
  have htl' := (List.tail_suffix rest).length_le
  refine .peekKind_bind ?_
  split
  · exact .advance_bind (.bind (expressionAt_same (by omega) (by omega)) fun _ _ _ => .refl _ _)
  · exact .refl _ _

section Statements

variable {item item' : Parser Stmt} {k : Nat}

theorem length_dropSemicolons_le (ts : List Token) :
    (ts.dropWhile (·.kind == .semicolon)).length ≤ ts.length :=
  (List.dropWhile_suffix _).length_le

theorem SameAt.skipSemicolons_bind {ts : List Token} {f g : Unit → Parser α}
    (h : SameAt (ts.dropWhile (·.kind == .semicolon)) (f ()) (g ())) :
    SameAt ts (skipSemicolons >>= f) (skipSemicolons >>= g) := h

theorem statements_same (hc : Consumes item) {ends : TokenKind → Bool} (hends : ends .eof = true)
    {m n : Nat} {ts : List Token}
    (h : ∀ us : List Token, us.length ≤ ts.length → SameAt us item item')
    (hm : ts.length ≤ m) (hn : ts.length ≤ n) :
    SameAt ts (statements item ends m) (statements item' ends n) := by
  have nil (item : Parser Stmt) (n : Nat) : statements item ends n [] = .ok [] [] := by
    cases n with
    | zero => rfl
    | succ n =>
      show (if ends .eof = true then (pure [] : Parser (List Stmt)) else _) [] = _
      rw [if_pos hends]
      rfl
  induction m generalizing n ts with
  | zero =>
    cases ts with
    | cons t ts => simp at hm
    | nil => exact (nil _ _).trans (nil _ _).symm
  | succ m ih =>
    cases n with
    | zero =>
      cases ts with
      | cons t ts => simp at hn
      | nil => exact (nil _ _).trans (nil _ _).symm
    | succ n =>
      have hle := length_dropSemicolons_le ts
      refine .skipSemicolons_bind (.peekKind_bind ?_)
      split
      · exact .refl _ _
      · refine .bind (h _ hle) fun s rest hr => ?_
        have hlt := hc _ _ _ hr
        exact .bind (ih (fun us hus => h us (by omega)) (by omega) (by omega))
          fun _ _ _ => .refl _ _

theorem block_same (hc : Consumes item) (h : SameBelow k item item') {m n : Nat}
    {ts : List Token} (hk : ts.length ≤ k) (hm : ts.length ≤ m) (hn : ts.length ≤ n) :
    SameAt ts (block m item) (block n item') := by
  refine .bind (.refl _ _) fun opener rest hr => ?_
  have hlt := consumes_expect _ (by decide) _ _ _ hr
  refine SameAt.within (.bind ?_ fun _ _ _ => .refl _ _) _ _
  exact statements_same hc rfl (fun us hus => h us (by omega)) (by omega) (by omega)

theorem function_same (hc : Consumes item) (h : SameBelow k item item') {m n : Nat}
    {ts : List Token} (hk : ts.length ≤ k) (hm : ts.length ≤ m) (hn : ts.length ≤ n) :
    SameAt ts (function m item) (function n item') := by
  have htl := (List.tail_suffix ts).length_le
  refine .peek_bind (.advance_bind (.bind (.refl _ _) fun name rest₁ hr₁ => ?_))
  have hlt₁ := consumes_identifier _ _ _ hr₁
  refine .bind (.refl _ _) fun opener rest₂ hr₂ => ?_
  have hlt₂ := (suffix_expect _ _).length_le hr₂
  refine .bind (SameAt.within (commaList_same consumes_identifier
    (k := k) (fun _ _ => .refl _ _) _ _ ?_ ?_ ?_) _ _) fun params rest₃ hr₃ => ?_
  · omega
  · omega
  · omega
  · have hlt₃ := ((suffix_commaList suffix_identifier _ _ _).within _ _).length_le hr₃
    exact .bind (block_same hc h (by omega) (by omega) (by omega)) fun _ _ _ => .refl _ _

theorem statementWith_same (hc : Consumes item) (h : SameBelow k item item') {m n : Nat}
    {ts : List Token} (hk : ts.length ≤ k) (hm : ts.length ≤ m) (hn : ts.length ≤ n) :
    SameAt ts (statementWith m item) (statementWith n item') := by
  refine .peek_bind ?_
  split
  · exact declaration_same _ hm hn
  · exact declaration_same _ hm hn
  · exact function_same hc h hk hm hn
  · exact .bind (expressionAt_same hm hn) fun _ _ _ => .refl _ _

end Statements

/-- The bound does not matter. -/
theorem statementAt_same {m n : Nat} {ts : List Token} (hm : ts.length ≤ m)
    (hn : ts.length ≤ n) : SameAt ts (statementAt m) (statementAt n) := by
  induction m generalizing n ts with
  | zero =>
    cases ts with
    | cons t ts => simp at hm
    | nil =>
      cases n with
      | zero => exact .refl _ _
      | succ n => rfl
  | succ m ih =>
    cases n with
    | zero =>
      cases ts with
      | cons t ts => simp at hn
      | nil => rfl
    | succ n =>
      exact statementWith_same (k := ts.length) (consumes_statementAt m)
        (fun us hus => ih (by omega) (by omega)) (Nat.le_refl _) hm hn

theorem statementAt_eq {n : Nat} {ts : List Token} (hn : ts.length ≤ n) :
    statementAt n ts = statement ts :=
  statementAt_same hn (Nat.le_refl _)

theorem suffix_statement : Suffix statement := fun ts => suffix_statementAt ts.length ts

theorem consumes_statement : Consumes statement := fun ts => consumes_statementAt ts.length ts

/-- A statement is made of statements. -/
theorem statement_eq (ts : List Token) : statement ts = statementWith ts.length statement ts := by
  rw [← statementAt_eq (Nat.le_succ ts.length)]
  exact statementWith_same (k := ts.length) (consumes_statementAt _)
    (fun us hus => statementAt_eq (Nat.le_of_lt hus)) (Nat.le_refl _) (Nat.le_succ _)
    (Nat.le_refl _)

/-- A program is a list of statements up to an end token. -/
theorem program_eq (ts : List Token) :
    program ts = statements statement (· == .eof) ts.length ts :=
  statements_same (consumes_statementAt _) rfl (fun _ hus => statementAt_eq hus)
    (Nat.le_refl _) (Nat.le_refl _)

end ScopeScript.Parser
