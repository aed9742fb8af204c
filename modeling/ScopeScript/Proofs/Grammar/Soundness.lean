import ScopeScript.Proofs.Grammar.Shape
import ScopeScript.Syntax.Parser.Progress

/-!
# What parsers read is in the grammar

`Finds p ts Q` says that if `p` succeeds on `ts`, with the result `a` and the tokens `rest` left,
then `Q a rest`.  A parser of expressions finds the phrase between `ts` and `rest`, and never stops
at a `(` that could call what it has read.

    finds_expressionAt   expression finds an expression, no call torn
    finds_program        program finds greedy statements up to an end token
-/

namespace ScopeScript.Grammar

open ScopeScript.Parser

variable {α β : Type}

def Finds (p : Parser α) (ts : List Token) (Q : α → List Token → Prop) : Prop :=
  ∀ a rest, p ts = .ok a rest → Q a rest

namespace Finds

variable {ts : List Token} {p : Parser α} {Q : α → List Token → Prop}

theorem mono {Q' : α → List Token → Prop} (h : Finds p ts Q) (hQ : ∀ a rest, Q a rest → Q' a rest) :
    Finds p ts Q' :=
  fun a rest he => hQ a rest (h a rest he)

theorem bind {f : α → Parser β} {R : β → List Token → Prop} (h : Finds p ts Q)
    (hf : ∀ a mid, Q a mid → Finds (f a) mid R) : Finds (p >>= f) ts R := by
  intro b rest he
  rw [bind_apply] at he
  cases hp : p ts with
  | ok a mid =>
    rw [hp] at he
    exact hf a mid (h a mid hp) b rest he
  | error e mid =>
    rw [hp] at he
    cases he

theorem pure {a : α} (h : Q a ts) : Finds (Pure.pure a) ts Q := by
  rintro _ _ ⟨⟩
  exact h

theorem throw {e : ParseError} : Finds (MonadExcept.throw e) ts Q := nofun

theorem refuse {x : Expectation} : Finds (refuse x) ts Q := nofun

theorem within {b : Bracket} {line : Nat} (h : Finds p ts Q) : Finds (within b line p) ts Q :=
  fun a rest he => h a rest (within_eq_ok_iff.1 he)

theorem peek_bind {f : Token → Parser α} (h : Finds (f (next ts)) ts Q) :
    Finds (peek >>= f) ts Q := h

theorem peekKind_bind {f : TokenKind → Parser α} (h : Finds (f (next ts).kind) ts Q) :
    Finds (peekKind >>= f) ts Q := h

theorem advance_bind {f : Unit → Parser α} (h : Finds (f ()) ts.tail Q) :
    Finds (advance >>= f) ts Q := h

theorem skipSemicolons_bind {f : Unit → Parser α}
    (h : Finds (f ()) (ts.dropWhile (·.kind == .semicolon)) Q) :
    Finds (skipSemicolons >>= f) ts Q := h

end Finds

/-! ## Tokens -/

section Tokens

variable {ts : List Token}

theorem cons_of_kind {kind : TokenKind} (h : (next ts).kind = kind) (hk : kind ≠ .eof) :
    ts = next ts :: ts.tail := by
  cases ts with
  | nil => exact absurd h.symm hk
  | cons t ts => rfl

theorem finds_expect {kind : TokenKind} (x : Expectation) (hk : kind ≠ .eof) :
    Finds (expect kind x) ts fun t rest => ts = t :: rest ∧ t.kind = kind := by
  intro t rest h
  rw [expect_apply] at h
  split at h
  · next hkind =>
    cases h
    exact ⟨cons_of_kind hkind hk, hkind⟩
  · cases h

theorem finds_identifier :
    Finds identifier ts fun name rest => ∃ t, ts = t :: rest ∧ t.kind = .identifier ∧
      name = t.text := by
  refine (finds_expect _ (by decide)).bind fun t rest h => .pure ?_
  exact ⟨t, h.1, h.2, rfl⟩

theorem finds_close (b : Bracket) (line : Nat) :
    Finds (close b line) ts fun _ rest => ∃ t, ts = t :: rest ∧ t.kind = b.closing := by
  rintro _ rest h
  unfold close at h
  rw [peekKind_bind] at h
  split at h
  · next hkind =>
    cases h
    refine ⟨next ts, cons_of_kind hkind ?_, hkind⟩
    cases b <;> decide
  · split at h <;> cases h

theorem operatorOf?_eq_some {t : Token} {op : BinaryOp} :
    operatorOf? t = some op ↔ t.kind = .operator ∧ t.text = op.symbol := by
  unfold operatorOf?
  constructor
  · intro h
    split at h
    · next hkind =>
      refine ⟨hkind, ?_⟩
      unfold BinaryOp.ofSymbol? at h
      split at h
      all_goals
        first
        | cases h
      all_goals assumption
    · cases h
  · rintro ⟨hkind, htext⟩
    rw [if_pos hkind, htext]
    cases op <;> rfl

theorem isMultiplicative_iff {op : BinaryOp} :
    isMultiplicative op = true ↔ levelOf op = .product := by
  cases op <;> decide

theorem isAdditive_iff {op : BinaryOp} : isAdditive op = true ↔ levelOf op = .sum := by
  cases op <;> decide

end Tokens

/-! ## Expressions -/

/-- On fewer than `k` tokens, what `inner` reads is an expression, and no call is torn. -/
def Reads (inner : Parser Expr) (k : Nat) : Prop :=
  ∀ ts : List Token, ts.length < k →
    Finds inner ts fun e rest => Spells ts (.expr .expression e) rest ∧ ¬ TearsCall ts rest

section Levels

variable {inner : Parser Expr} {k : Nat} {ts : List Token}

theorem finds_group (hi : Reads inner k) (b : Bracket) (line : Nat) (hk : ts.length < k) :
    Finds
      (within b line do
        let e ← inner
        close b line
        return e)
      ts fun e rest =>
        ∃ closer, closer.kind = b.closing ∧ Spells ts (.expr .expression e) (closer :: rest) := by
  refine .within ((hi ts hk).bind fun e mid he => (finds_close b line).bind fun _ rest hc => ?_)
  obtain ⟨closer, rfl, hc⟩ := hc
  exact .pure ⟨closer, hc, he.1⟩

theorem finds_primary (hi : Reads inner k) (hk : ts.length ≤ k) :
    Finds (primary inner) ts fun e rest => Spells ts (.expr .primary e) rest := by
  cases ts with
  | nil => exact nofun
  | cons t ts =>
    apply Finds.peek_bind
    split
    · next hkind => exact .advance_bind (.pure (.name hkind))
    · next hkind =>
      apply Finds.advance_bind
      split
      · next hx => exact .pure (.number hkind hx)
      · exact .throw
    · next hkind => exact .advance_bind (.pure (.string hkind))
    · next hkind =>
      refine .advance_bind ((finds_group hi .round t.line hk).mono fun e rest h => ?_)
      obtain ⟨closer, hc, he⟩ := h
      exact .group hkind he hc
    · exact .refuse

/-- Lists with commas, at least one item and the closing bracket. -/
theorem finds_items {item : Parser α} {P : List Token → α → List Token → Prop}
    {L : List Token → List α → List Token → Prop}
    (hitem : ∀ us : List Token, us.length < k → Finds item us (P us))
    (hlt : ∀ us x rest, P us x rest → rest.length < us.length)
    (last : ∀ us x rest, P us x rest → L us [x] rest)
    (cons : ∀ us x comma mid y ys rest, P us x (comma :: mid) → comma.kind = .comma →
      L mid (y :: ys) rest → L us (x :: y :: ys) rest)
    (b : Bracket) (line : Nat) {n : Nat} {ts : List Token} (hk : ts.length < k) :
    Finds (items item b line n) ts fun xs rest => xs ≠ [] ∧
      ∃ closer, closer.kind = b.closing ∧ L ts xs (closer :: rest) := by
  induction n generalizing ts with
  | zero => exact .throw
  | succ n ih =>
    apply Finds.peekKind_bind
    split
    · exact .throw
    · refine (hitem ts hk).bind fun x mid hx => .peekKind_bind ?_
      have hmid := hlt ts x mid hx
      split
      · next hcomma =>
        have hcons := cons_of_kind hcomma (by decide)
        have htail : mid.tail.length < k := by
          rw [List.length_tail]
          omega
        refine .advance_bind ((ih htail).bind fun xs rest h => .pure ⟨List.cons_ne_nil x xs, ?_⟩)
        obtain ⟨hne, closer, hc, hL⟩ := h
        obtain ⟨y, ys, rfl⟩ := List.exists_cons_of_ne_nil hne
        refine ⟨closer, hc, ?_⟩
        rw [hcons] at hx
        exact cons ts x _ _ y ys _ hx hcomma hL
      · split
        · next hclose =>
          have hcons := cons_of_kind hclose (by cases b <;> decide)
          refine .advance_bind (.pure ⟨List.cons_ne_nil x [], next mid, hclose, ?_⟩)
          rw [← hcons]
          exact last ts x mid hx
        · split
          · exact .throw
          · exact .refuse

theorem finds_arguments (hi : Reads inner k) (line n : Nat) (hk : ts.length < k) :
    Finds (commaList inner .round line n) ts fun es rest =>
      ∃ closer : Token, closer.kind = .rightParen ∧ Spells ts (.arguments es) (closer :: rest) := by
  apply Finds.peekKind_bind
  split
  · next hclose =>
    have hcons := cons_of_kind hclose (by decide)
    refine .advance_bind (.pure ⟨next ts, hclose, ?_⟩)
    rw [← hcons]
    exact .noArguments
  · have hitems := finds_items
      (P := fun us e rest => Spells us (.expr .expression e) rest)
      (L := fun us es rest => Spells us (.arguments es) rest)
      (fun us hus => (hi us hus).mono fun _ _ he => he.1) (fun _ _ _ he => he.length_lt)
      (fun _ _ _ he => .lastArgument he) (fun _ _ _ _ _ _ _ he hc hes => .argument he hc hes)
      .round line (n := n) hk
    exact hitems.mono fun es rest h => h.2

/-- What is applied to the operand `e₀`, which starts at `ts₀`. -/
theorem finds_suffixes (hi : Reads inner k) {n : Nat} {e₀ : Expr} {ts₀ : List Token}
    (h₀ : Spells ts₀ (.expr .operand e₀) ts) (hk : ts.length ≤ k) (hn : ts.length ≤ n) :
    Finds (suffixes inner n e₀) ts fun e rest =>
      Spells ts₀ (.expr .operand e) rest ∧ (next rest).kind ≠ .leftParen := by
  induction n generalizing e₀ ts with
  | zero =>
    have hnil := List.length_eq_zero_iff.1 (Nat.le_zero.1 hn)
    subst hnil
    exact .pure ⟨h₀, by decide⟩
  | succ n ih =>
    apply Finds.peek_bind
    cases ts with
    | nil => exact .pure ⟨h₀, by decide⟩
    | cons t ts =>
      rw [next_cons]
      simp only [List.length_cons] at hk hn
      split
      · next hkind =>
        refine .advance_bind (.peek_bind (finds_identifier.bind fun name rest hname => ?_))
        obtain ⟨t', hts, hkind', rfl⟩ := hname
        change ts = t' :: rest at hts
        subst hts
        simp only [List.length_cons] at hk hn
        exact ih (.dot h₀ hkind hkind') (by omega) (by omega)
      · next hkind =>
        refine .advance_bind ((finds_group hi .square t.line hk).bind fun key rest h => ?_)
        obtain ⟨closer, hc, hkey⟩ := h
        have hle := hkey.suffix.length_le
        simp only [List.length_cons] at hle
        exact ih (.index h₀ hkind hkey hc) (by omega) (by omega)
      · next hkind =>
        refine .advance_bind ((finds_arguments hi t.line n hk).within.bind fun es rest h => ?_)
        obtain ⟨closer, hc, hes⟩ := h
        have hle := hes.suffix.length_le
        simp only [List.length_cons] at hle
        exact ih (.call h₀ hkind hes hc) (by omega) (by omega)
      · next hdot hbracket hparen =>
        exact .pure ⟨h₀, hparen⟩

/-- A phrase of the level that does not stop at a `(`. -/
def Whole (level : Level) (ts : List Token) (e : Expr) (rest : List Token) : Prop :=
  Spells ts (.expr level e) rest ∧ (next rest).kind ≠ .leftParen

theorem finds_operand (hi : Reads inner k) {n : Nat} (hk : ts.length ≤ k) (hn : ts.length ≤ n) :
    Finds (operand n inner) ts (Whole .operand ts) := by
  refine (finds_primary hi hk).bind fun e mid he => ?_
  have hle := he.suffix.length_le
  exact finds_suffixes hi (.primary he) (by omega) (by omega)

/-- Operators and right operands, one after the other. -/
theorem finds_chain {level : Parser Expr} {accepts : BinaryOp → Bool} {P : Expr → List Token → Prop}
    (step : ∀ left t us op, P left (t :: us) → operatorOf? t = some op → accepts op = true →
      us.length ≤ k → Finds level us fun right rest =>
        P (.binary left op right t.line) rest ∧ rest.length ≤ us.length)
    {n : Nat} {left : Expr} (h : P left ts) (hk : ts.length ≤ k) :
    Finds (chain level accepts n left) ts P := by
  induction n generalizing left ts with
  | zero => exact .pure h
  | succ n ih =>
    apply Finds.peek_bind
    split
    · next op hop =>
      split
      · next haccepts =>
        have hcons := cons_of_kind (operatorOf?_eq_some.1 hop).1 (by decide)
        have hle : ts.tail.length ≤ k := by
          rw [List.length_tail]
          omega
        rw [hcons] at h
        refine .advance_bind ((step left _ _ op h hop haccepts hle).bind fun right rest hr => ?_)
        exact ih hr.1 (by omega)
      · exact .pure h
    · exact .pure h

theorem finds_product (hi : Reads inner k) {n : Nat} (hk : ts.length ≤ k) (hn : ts.length ≤ n) :
    Finds (product n inner) ts (Whole .product ts) := by
  refine (finds_operand hi hk hn).bind fun e mid he => ?_
  have hle := he.1.suffix.length_le
  refine finds_chain (k := ts.length) (fun left t us op hleft hop haccepts hus => ?_)
    ⟨.operand he.1, he.2⟩ hle
  obtain ⟨hkind, htext⟩ := operatorOf?_eq_some.1 hop
  refine (finds_operand hi (by omega) (by omega)).mono fun right rest hr => ⟨⟨?_, hr.2⟩, ?_⟩
  · exact .times hleft.1 hkind htext (isMultiplicative_iff.1 haccepts) hr.1
  · exact hr.1.suffix.length_le

theorem finds_sum (hi : Reads inner k) {n : Nat} (hk : ts.length ≤ k) (hn : ts.length ≤ n) :
    Finds (sum n inner) ts (Whole .sum ts) := by
  refine (finds_product hi hk hn).bind fun e mid he => ?_
  have hle := he.1.suffix.length_le
  refine finds_chain (k := ts.length) (fun left t us op hleft hop haccepts hus => ?_)
    ⟨.product he.1, he.2⟩ hle
  obtain ⟨hkind, htext⟩ := operatorOf?_eq_some.1 hop
  refine (finds_product hi (by omega) (by omega)).mono fun right rest hr => ⟨⟨?_, hr.2⟩, ?_⟩
  · exact .plus hleft.1 hkind htext (isAdditive_iff.1 haccepts) hr.1
  · exact hr.1.suffix.length_le

theorem properties_of_end (inner : Parser Expr) (n : Nat)
    (h : (next ts).kind = .rightBrace ∨ (next ts).kind = .eof) :
    properties inner n ts = .ok [] ts := by
  cases n with
  | zero => rfl
  | succ n =>
    unfold properties
    rw [peek_bind, if_pos h]
    rfl

theorem finds_properties_end (n : Nat) (h : (next ts).kind = .rightBrace ∨ (next ts).kind = .eof) :
    Finds (properties inner n) ts fun ps rest => ps = [] ∧ rest = ts := by
  intro ps rest hread
  rw [properties_of_end inner n h] at hread
  cases hread
  exact ⟨rfl, rfl⟩

theorem finds_properties (hi : Reads inner k) {n : Nat} (hk : ts.length ≤ k) :
    Finds (properties inner n) ts fun ps rest => Spells ts (.properties ps) rest := by
  induction n generalizing ts with
  | zero => exact .pure .noProperties
  | succ n ih =>
    apply Finds.peek_bind
    split
    · exact .pure .noProperties
    · refine finds_identifier.bind fun name mid hname => ?_
      obtain ⟨key, rfl, hkey, rfl⟩ := hname
      rw [next_cons]
      simp only [List.length_cons] at hk
      have hshort : Spells (key :: mid) (.property (.shorthand key.text key.line)) mid :=
        .shorthand hkey
      apply Finds.peekKind_bind
      split
      · next hcomma =>
        have hcons := cons_of_kind hcomma (by decide)
        have htail : mid.tail.length ≤ k := by
          rw [List.length_tail]
          omega
        refine .advance_bind ((ih htail).bind fun ps rest hps => .pure ?_)
        rw [hcons] at hshort ⊢
        exact .propertyThen hshort hcomma hps
      · split
        · next hclose =>
          refine (finds_properties_end n (.inl hclose)).bind fun ps rest h => .pure ?_
          obtain ⟨rfl, rfl⟩ := h
          exact .lastProperty hshort
        · refine (finds_expect _ (by decide)).bind fun colon us hcolon => ?_
          obtain ⟨rfl, hcolon⟩ := hcolon
          simp only [List.length_cons] at hk
          refine (hi us (by omega)).bind fun value mid hvalue => ?_
          have hfield : Spells (key :: colon :: us) (.property (.field key.text value key.line)) mid :=
            .field hkey hcolon hvalue.1
          have hle := hvalue.1.suffix.length_le
          apply Finds.peekKind_bind
          split
          · next hcomma =>
            have hcons := cons_of_kind hcomma (by decide)
            have htail : mid.tail.length ≤ k := by
              rw [List.length_tail]
              omega
            refine .advance_bind ((ih htail).bind fun ps rest hps => .pure ?_)
            rw [hcons] at hfield
            exact .propertyThen hfield hcomma hps
          · split
            · next hclose =>
              refine (finds_properties_end n hclose).bind fun ps rest h => .pure ?_
              obtain ⟨rfl, rfl⟩ := h
              exact .lastProperty hfield
            · exact .refuse

/-- An object literal does not end in an operand, whatever follows it. -/
theorem finds_objectLevel (hi : Reads inner k) {n : Nat} (hk : ts.length ≤ k) (hn : ts.length ≤ n) :
    Finds (objectLevel n inner) ts fun e rest =>
      Spells ts (.expr .objectLevel e) rest ∧ ¬ TearsCall ts rest := by
  apply Finds.peek_bind
  split
  · next hkind =>
    have hcons := cons_of_kind hkind (by decide)
    have htail : ts.tail.length ≤ k := by
      rw [List.length_tail]
      omega
    refine .advance_bind (.within ((finds_properties hi htail).bind fun ps mid hps => ?_))
    refine (finds_close .curly _).bind fun _ rest hc => .pure ?_
    obtain ⟨closer, rfl, hc⟩ := hc
    have hobject : Spells ts (.expr .objectLevel (.object ps (next ts).line)) rest := by
      have := Spells.object hkind hps hc
      rwa [← hcons] at this
    have hends : EndsWith .rightBrace ts rest :=
      ⟨closer, hc, hps.suffix.trans (List.tail_suffix ts)⟩
    exact ⟨hobject, fun htears => hends.not_endsInOperand htears.1⟩
  · refine (finds_sum hi hk hn).mono fun e rest he => ?_
    exact ⟨.sum he.1, fun htears => he.2 htears.2⟩

theorem finds_assignment (hi : Reads inner k) {n : Nat} (hk : ts.length ≤ k) (hn : ts.length ≤ n) :
    Finds (assignment n inner) ts fun e rest =>
      Spells ts (.expr .expression e) rest ∧ ¬ TearsCall ts rest := by
  refine (finds_objectLevel hi hk hn).bind fun target mid htarget => .peek_bind ?_
  have hlt := htarget.1.length_lt
  split
  · next hkind =>
    have hcons := cons_of_kind hkind (by decide)
    have htail : mid.tail.length < k := by
      rw [List.length_tail]
      omega
    refine .advance_bind ((hi mid.tail htail).bind fun value rest hvalue => .pure ?_)
    have hl := htarget.1
    rw [hcons] at hl
    refine ⟨.assign hl hkind hvalue.1, fun htears => hvalue.2 ⟨?_, htears.2⟩⟩
    rcases hvalue.1.endsInOperand_or with hends | hbrace
    · exact hends
    · have hsuffix := (List.tail_suffix mid).trans htarget.1.suffix
      exact absurd htears.1 (hbrace.of_suffix hsuffix).not_endsInOperand
  · exact .pure ⟨.objectLevel htarget.1, htarget.2⟩

end Levels

theorem finds_expressionAt {n : Nat} {ts : List Token} (hn : ts.length ≤ n) :
    Finds (expressionAt n) ts fun e rest =>
      Spells ts (.expr .expression e) rest ∧ ¬ TearsCall ts rest := by
  induction n generalizing ts with
  | zero => exact .refuse
  | succ n ih =>
    have hi : Reads (expressionAt n) ts.length := fun us hus => ih (by omega)
    exact finds_assignment hi (Nat.le_refl _) hn

/-! ## Statements -/

section Statements

variable {ts : List Token}

theorem finds_parameters (line n : Nat) :
    Finds (commaList identifier .round line n) ts fun params rest =>
      ∃ closer : Token, closer.kind = .rightParen ∧ Parameters ts params (closer :: rest) := by
  apply Finds.peekKind_bind
  split
  · next hclose =>
    have hcons := cons_of_kind hclose (by decide)
    refine .advance_bind (.pure ⟨next ts, hclose, ?_⟩)
    rw [← hcons]
    exact .none
  · have hitems := finds_items (k := ts.length + 1)
      (P := fun us name rest => ∃ t : Token, us = t :: rest ∧ t.kind = .identifier ∧ name = t.text)
      (L := fun us params rest => Parameters us params rest)
      (fun us _ => finds_identifier)
      (by
        rintro _ _ rest ⟨t, rfl, -, -⟩
        exact Nat.lt_succ_self _)
      (by
        rintro _ _ rest ⟨t, rfl, ht, rfl⟩
        exact .last ht)
      (by
        rintro _ _ comma mid y ys rest ⟨t, rfl, ht, rfl⟩ hc hps
        exact .cons ht hc hps)
      .round line (n := n) (Nat.lt_succ_self _)
    exact hitems.mono fun params rest h => h.2

theorem finds_declaration {n : Nat} {constant : Bool}
    (hk : (next ts).kind = declarationKind constant) (hn : ts.length ≤ n) :
    Finds (declaration n constant) ts (Statement true ts) := by
  have hcons := cons_of_kind hk (declarationKind_ne_eof constant)
  refine .peek_bind (.advance_bind (finds_identifier.bind fun _ rest hname => ?_))
  obtain ⟨name, hts, hname, rfl⟩ := hname
  rw [hts] at hcons
  apply Finds.peekKind_bind
  split
  · next hequals =>
    have hrest := cons_of_kind hequals (by decide)
    have hle : rest.tail.length ≤ n := by
      rw [hcons] at hn
      simp only [List.length_cons, List.length_tail] at hn ⊢
      omega
    refine .advance_bind ((finds_expressionAt hle).bind fun e rest' he => .pure ?_)
    have hstatement := Statement.declareAs hk hname hequals he.1 fun _ : true = true => he.2
    rwa [← hrest, ← hcons] at hstatement
  · have hstatement : Statement true (next ts :: name :: rest) _ rest := .declare hk hname
    rw [← hcons] at hstatement
    exact .pure hstatement

theorem Statements.of_dropSemicolons {greedy : Bool} {ss : List Stmt} {rest : List Token}
    (h : Statements greedy (ts.dropWhile (·.kind == .semicolon)) ss rest) :
    Statements greedy ts ss rest := by
  induction ts with
  | nil => exact h
  | cons t ts ih =>
    rw [List.dropWhile_cons] at h
    split at h
    · next hkind => exact .semicolon (beq_iff_eq.1 hkind) (ih h)
    · exact h

/-- On fewer than `k` tokens, what `item` reads is a statement. -/
def ReadsStatement (item : Parser Stmt) (k : Nat) : Prop :=
  ∀ ts : List Token, ts.length < k → Finds item ts (Statement true ts)

variable {item : Parser Stmt} {k : Nat}

theorem finds_statements (hi : ReadsStatement item k) {ends : TokenKind → Bool}
    (hends : ends .eof = true) {n : Nat} (hk : ts.length < k) (hn : ts.length ≤ n) :
    Finds (statements item ends n) ts fun ss rest =>
      Statements true ts ss rest ∧ ends (next rest).kind = true := by
  induction n generalizing ts with
  | zero =>
    have hnil := List.length_eq_zero_iff.1 (Nat.le_zero.1 hn)
    subst hnil
    exact .pure ⟨.nil, hends⟩
  | succ n ih =>
    have hle := (List.dropWhile_suffix (·.kind == .semicolon) (l := ts)).length_le
    refine Finds.mono (Q := fun ss rest =>
      Statements true (ts.dropWhile (·.kind == .semicolon)) ss rest ∧
        ends (next rest).kind = true) ?_ ?_
    · apply Finds.skipSemicolons_bind
      apply Finds.peekKind_bind
      split
      · next hend => exact .pure ⟨.nil, hend⟩
      · refine (hi _ (by omega)).bind fun s mid hs => ?_
        have hlt := hs.length_lt
        refine (ih (by omega) (by omega)).bind fun ss rest hss => .pure ?_
        exact ⟨.cons hs hss.1, hss.2⟩
    · exact fun ss rest h => ⟨h.1.of_dropSemicolons, h.2⟩

theorem finds_block (hi : ReadsStatement item k) {n : Nat} (hk : ts.length ≤ k)
    (hn : ts.length ≤ n) :
    Finds (block n item) ts fun body rest => ∃ opener mid closer, ts = opener :: mid ∧
      opener.kind = .leftBrace ∧ Statements true mid body (closer :: rest) ∧
      closer.kind = .rightBrace := by
  refine (finds_expect _ (by decide)).bind fun opener mid h => ?_
  obtain ⟨rfl, hopener⟩ := h
  simp only [List.length_cons] at hk hn
  refine .within ((finds_statements hi rfl (by omega) (by omega)).bind fun body us hbody => ?_)
  refine (finds_close .curly _).bind fun _ rest hc => .pure ?_
  obtain ⟨closer, rfl, hc⟩ := hc
  exact ⟨opener, mid, closer, rfl, hopener, hbody.1, hc⟩

theorem finds_function (hi : ReadsStatement item k) {n : Nat} (hfn : (next ts).kind = .fnKeyword)
    (hk : ts.length ≤ k) (hn : ts.length ≤ n) :
    Finds (function n item) ts (Statement true ts) := by
  have hcons := cons_of_kind hfn (by decide)
  refine .peek_bind (.advance_bind (finds_identifier.bind fun _ rest₁ hname => ?_))
  obtain ⟨name, hts, hname, rfl⟩ := hname
  refine (finds_expect _ (by decide)).bind fun opener rest₂ h => ?_
  obtain ⟨rfl, hopener⟩ := h
  refine (finds_parameters _ n).within.bind fun params rest₃ h => ?_
  obtain ⟨closer, hc, hparams⟩ := h
  rw [hts] at hcons
  have hle := hparams.detached.suffix.length_le
  rw [hcons] at hk hn
  simp only [List.length_cons] at hk hn hle
  refine (finds_block hi (by omega) (by omega)).bind fun body rest hblock => .pure ?_
  obtain ⟨opener', mid, closer', rfl, hopener', hbody, hc'⟩ := hblock
  have := Statement.function hfn hname hopener hparams hc hopener' hbody hc'
  rwa [← hcons] at this

theorem finds_statementWith (hi : ReadsStatement item k) {n : Nat} (hk : ts.length ≤ k)
    (hn : ts.length ≤ n) : Finds (statementWith n item) ts (Statement true ts) := by
  apply Finds.peek_bind
  split
  · next hkind => exact @finds_declaration _ _ false hkind hn
  · next hkind => exact @finds_declaration _ _ true hkind hn
  · next hkind => exact finds_function hi hkind hk hn
  · exact (finds_expressionAt hn).bind fun e rest he => .pure (.expr he.1 fun _ => he.2)

end Statements

theorem finds_statementAt {n : Nat} {ts : List Token} (hn : ts.length ≤ n) :
    Finds (statementAt n) ts (Statement true ts) := by
  induction n generalizing ts with
  | zero => exact .refuse
  | succ n ih => exact finds_statementWith (fun us hus => ih (by omega)) (Nat.le_refl _) hn


/-- A program is greedy statements and then the end of the input. -/
theorem finds_program (ts : List Token) :
    Finds program ts fun ss rest =>
      Statements true ts ss rest ∧ (next rest).kind = .eof := by
  have hi : ReadsStatement (statementAt ts.length) (ts.length + 1) :=
    fun us hus => finds_statementAt (Nat.le_of_lt_succ hus)
  have hstatements := @finds_statements ts _ _ hi (· == .eof) rfl _ (Nat.lt_succ_self _)
    (Nat.le_refl ts.length)
  exact hstatements.mono fun ss rest h => ⟨h.1, beq_iff_eq.1 h.2⟩

end ScopeScript.Grammar
