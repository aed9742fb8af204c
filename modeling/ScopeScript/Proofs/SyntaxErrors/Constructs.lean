import ScopeScript.Proofs.SyntaxErrors.Errors

/-!
# Errors inside every construct

Every parser fails only at a token up to which its phrase could still be completed, and it names the
innermost bracket that is open there.  The proofs follow the parsers, as those do that say what
is read (`finds_expressionAt` and the others).

    breaks_expressionAt   an error in an expression
    breaks_program        an error in a program
-/

namespace ScopeScript.Grammar

open ScopeScript.Parser

variable {α β : Type} {group : Option (Bracket × Nat)}

/-! ## Single tokens -/

/-- A token of the given kind. -/
def Single (kind : TokenKind) (ts rest : List Token) : Prop :=
  ∃ t : Token, ts = t :: rest ∧ t.kind = kind

theorem legal_single {t : Token} (ht : t.Legal) : ∀ u ∈ [t], u.Legal := by
  simpa using ht

section Tokens

variable {ts : List Token}

theorem breaks_expect {t : Token} (ht : t.Legal) (x : Expectation) :
    Breaks group (Single t.kind) ts (expect t.kind x) ts := by
  apply Breaks.peek_bind
  split
  · exact .advance_bind .pure
  · exact .refuse ⟨[t], legal_single ht, fun rest => ⟨t, rfl, rfl⟩⟩

theorem breaks_identifier : Breaks group (Single .identifier) ts identifier ts :=
  (breaks_expect anyName_legal .identifier).bind_pure

theorem completable_closer (b : Bracket) : Completable (Single b.closing) [] :=
  ⟨[b.closer], legal_single b.closer_legal, fun _ => ⟨b.closer, rfl, b.closer_kind⟩⟩

theorem breaks_close (b : Bracket) (line : Nat) :
    Breaks (some (b, line)) (Single b.closing) ts (close b line) ts := by
  apply Breaks.peekKind_bind
  split
  · exact .advance_bind (f := Pure.pure) .pure
  · split
    · next hend => exact .throw_unclosed (completable_closer b) hend
    · exact .refuse (completable_closer b)

end Tokens

/-! ## Brackets -/

/-- What `p` reads is a piece of the kind `P`, up to a closing bracket. -/
theorem breaks_closed {p : Parser α} {f : α → β} {P : List Token → List Token → Prop}
    {F : α → List Token → Prop} {ts : List Token} {b : Bracket} {line : Nat}
    (hp : Breaks (some (b, line)) P ts p ts) (hok : Finds p ts F)
    (hpiece : ∀ a mid, F a mid → Piece P ts mid) :
    Breaks (some (b, line)) (Closed b P) ts
      (do
        let a ← p
        close b line
        return f a) ts := by
  refine .bind ?_ hok fun a mid ha => ?_
  · refine hp.before (legal_single b.closer_legal) fun _ _ h => ?_
    exact ⟨b.closer, h, b.closer_kind⟩
  · refine (Breaks.after (hpiece a mid ha) (breaks_close b line) ?_).bind_pure
    rintro _ _ c h ⟨closer, rfl, hc⟩
    exact ⟨closer, h, hc⟩

/-! ## Expressions -/

def SomeExpr (level : Level) (ts rest : List Token) : Prop :=
  ∃ e, Spells ts (.expr level e) rest

theorem SomeExpr.widen {level level' : Level} {ts rest : List Token} (h : SomeExpr level ts rest)
    (hle : level.rank ≤ level'.rank) : SomeExpr level' ts rest := by
  obtain ⟨e, he⟩ := h
  exact ⟨e, he.widen hle⟩

theorem spells_anyName (level : Level) (rest : List Token) :
    SomeExpr level (anyName :: rest) rest := by
  have hname : SomeExpr .primary (anyName :: rest) rest := ⟨_, .name rfl⟩
  exact hname.widen (Nat.zero_le _)

theorem completable_expr (level : Level) : Completable (SomeExpr level) [] :=
  ⟨[anyName], legal_single anyName_legal, fun rest => spells_anyName level rest⟩

/-- On fewer than `k` tokens, `inner` fails as an expression does. -/
def BreaksBelow (inner : Parser Expr) (k : Nat) : Prop :=
  ∀ ts : List Token, ts.length < k → Breaks none (SomeExpr .expression) ts inner ts

section Levels

variable {inner : Parser Expr} {k : Nat} {ts : List Token}

theorem breaks_group (hi : Reads inner k) (hb : BreaksBelow inner k) {b : Bracket} {opener : Token}
    (ho : opener.kind = b.opening) (hk : ts.length < k) :
    Breaks group (Enclosed b (SomeExpr .expression)) (opener :: ts)
      (within b opener.line do
        let e ← inner
        close b opener.line
        return e)
      ts :=
  .within ho (breaks_closed (hb ts hk).loosen (hi ts hk) fun e _ he =>
    he.1.piece.mono fun _ _ h => ⟨e, h⟩)

theorem breaks_primary (hi : Reads inner k) (hb : BreaksBelow inner k) (hk : ts.length ≤ k) :
    Breaks group (SomeExpr .primary) ts (primary inner) ts := by
  apply Breaks.peek_bind
  split
  · exact .advance_bind .pure
  · next hkind =>
    apply Breaks.advance_bind
    split
    · exact .pure
    · next hnone =>
      intro hread
      have hmem : next ts ∈ ts := by
        rw [cons_of_kind hkind (by decide)]
        exact List.mem_cons_self
      have hsome := hread _ hmem hkind
      rw [hnone] at hsome
      cases hsome
  · exact .advance_bind .pure
  · next hkind =>
    have hcons := cons_of_kind hkind (by decide)
    have hlt := length_tail_lt ts (by simp [hkind])
    rw [hcons]
    refine .advance_bind ((breaks_group (b := .round) hi hb hkind (by omega)).mono ?_)
    rintro a c ⟨opener, mid, rfl, ho, closer, ⟨e, he⟩, hc⟩
    exact ⟨e, .group ho he hc⟩
  · exact .refuse (completable_expr .primary)

/-- Lists with commas, at least one item and the closing bracket. -/
theorem breaks_items {item : Parser α} {P : List Token → α → List Token → Prop}
    {L : List Token → List α → List Token → Prop}
    (hbreaks : ∀ us : List Token, us.length < k → Breaks none (fun a c => ∃ x, P a x c) us item us)
    (hitem : ∀ us : List Token, us.length < k → Finds item us (P us))
    (hpiece : ∀ us x rest, P us x rest → Piece (fun a c => P a x c) us rest)
    (hstart : Completable (fun a c => ∃ x, P a x c) [])
    (hlt : ∀ us x rest, P us x rest → rest.length < us.length)
    (last : ∀ us x rest, P us x rest → L us [x] rest)
    (cons : ∀ us x comma mid y ys rest, P us x (comma :: mid) → comma.kind = .comma →
      L mid (y :: ys) rest → L us (x :: y :: ys) rest)
    (b : Bracket) (line : Nat) {n : Nat} {ts : List Token} (hk : ts.length < k)
    (hn : ts.length ≤ n) :
    Breaks (some (b, line)) (Closed b fun a c => ∃ x xs, L a (x :: xs) c) ts
      (items item b line n) ts := by
  -- a list is complete with one more item and the closing bracket, behind an item with the bracket
  have hclosed (a c : List Token) (h : ∃ x, P a x (b.closer :: c)) :
      Closed b (fun a c => ∃ x xs, L a (x :: xs) c) a c := by
    obtain ⟨x, hx⟩ := h
    exact ⟨b.closer, ⟨x, [], last a x _ hx⟩, b.closer_kind⟩
  have hend (a c : List Token) (x : α) (d : List Token) (hx : P a x d) (hd : Single b.closing d c) :
      Closed b (fun a c => ∃ x xs, L a (x :: xs) c) a c := by
    obtain ⟨closer, rfl, hc⟩ := hd
    exact ⟨closer, ⟨x, [], last a x _ hx⟩, hc⟩
  have hnone : Completable (Closed b fun a c => ∃ x xs, L a (x :: xs) c) [] := by
    obtain ⟨us, hus, hP⟩ := hstart
    refine ⟨us ++ [b.closer], ?_, fun rest => ?_⟩
    · simpa [or_imp, forall_and, b.closer_legal] using hus
    · rw [List.append_assoc]
      exact hclosed _ rest (hP (b.closer :: rest))
  induction n generalizing ts with
  | zero =>
    have hnil := List.length_eq_zero_iff.1 (Nat.le_zero.1 hn)
    subst hnil
    exact .throw_unclosed hnone rfl
  | succ n ih =>
    apply Breaks.peekKind_bind
    split
    · next hstop => exact .throw_unclosed hnone hstop
    · refine .bind ?_ (hitem ts hk) fun x mid hx => .peekKind_bind ?_
      · exact (hbreaks ts hk).loosen.before (legal_single b.closer_legal) hclosed
      · have hmid := hlt ts x mid hx
        split
        · next hcomma =>
          have htail := length_tail_lt mid (by simp [hcomma])
          have hread := (hpiece ts x mid hx).trans (.next hcomma rfl)
          refine .advance_bind (Breaks.after hread (ih (by omega) (by omega)) ?_).bind_pure
          rintro a u c ⟨_, hx, rfl⟩ ⟨closer, ⟨y, ys, hL⟩, hc⟩
          exact ⟨closer, ⟨x, y :: ys, cons a x _ u y ys _ hx hcomma hL⟩, hc⟩
        · split
          · exact .advance_bind .pure
          · split
            · next hstop =>
              exact .after (hpiece ts x mid hx) (.throw_unclosed (completable_closer b) hstop)
                fun a d c => hend a c x d
            · exact .after (hpiece ts x mid hx) (.refuse (completable_closer b))
                fun a d c => hend a c x d

/-- A list that may be empty fails where its items do. -/
theorem breaks_commaList {item : Parser α} {P : List Token → List Token → Prop} {b : Bracket}
    {line n : Nat} (h : Breaks group P ts (items item b line n) ts) :
    Breaks group P ts (commaList item b line n) ts := by
  apply Breaks.peekKind_bind
  split
  · exact .advance_bind .pure
  · exact h

def SomeArguments (ts rest : List Token) : Prop := ∃ es, Spells ts (.arguments es) rest

theorem breaks_arguments (hi : Reads inner k) (hb : BreaksBelow inner k) (line : Nat) {n : Nat}
    (hk : ts.length < k) (hn : ts.length ≤ n) :
    Breaks (some (.round, line)) (Closed .round SomeArguments) ts
      (commaList inner .round line n) ts := by
  have hitems := breaks_items
    (P := fun us e rest => Spells us (.expr .expression e) rest)
    (L := fun us es rest => Spells us (.arguments es) rest)
    hb (fun us hus => (hi us hus).mono fun _ _ he => he.1) (fun _ _ _ he => he.piece)
    (completable_expr .expression) (fun _ _ _ he => he.length_lt)
    (fun _ _ _ he => .lastArgument he) (fun _ _ _ _ _ _ _ he hc hes => .argument he hc hes)
    .round line hk hn
  refine breaks_commaList (hitems.mono ?_)
  rintro a c ⟨closer, ⟨e, es, hes⟩, hc⟩
  exact ⟨closer, ⟨e :: es, hes⟩, hc⟩

theorem breaks_suffixes (hi : Reads inner k) (hb : BreaksBelow inner k) {n : Nat} {e₀ : Expr}
    {ts₀ : List Token} (h₀ : Spells ts₀ (.expr .operand e₀) ts) (hk : ts.length ≤ k)
    (hn : ts.length ≤ n) :
    Breaks group (SomeExpr .operand) ts₀ (suffixes inner n e₀) ts := by
  induction n generalizing e₀ ts with
  | zero => exact .pure
  | succ n ih =>
    apply Breaks.peek_bind
    cases ts with
    | nil => exact .pure
    | cons t ts =>
      rw [next_cons]
      simp only [List.length_cons] at hk hn
      split
      · next hkind =>
        refine .advance_bind (.peek_bind (.bind ?_ finds_identifier fun name rest hname => ?_))
        · refine .after (h₀.piece.trans (.token hkind rfl ts)) breaks_identifier ?_
          rintro a _ c ⟨_, he, rfl⟩ ⟨name, rfl, hn⟩
          exact ⟨_, .dot he hkind hn⟩
        · obtain ⟨t', hts, hkind', rfl⟩ := hname
          change ts = t' :: rest at hts
          subst hts
          simp only [List.length_cons] at hk hn
          exact ih (.dot h₀ hkind hkind') (by omega) (by omega)
      · next hkind =>
        refine .advance_bind (.bind ?_ (finds_group hi .square t.line hk) fun key rest h => ?_)
        · refine .after h₀.piece (breaks_group (b := .square) hi hb hkind hk) ?_
          rintro a _ c he ⟨opener, mid, rfl, ho, closer, ⟨key, hkey⟩, hc⟩
          exact ⟨_, .index he ho hkey hc⟩
        · obtain ⟨closer, hc, hkey⟩ := h
          have hle := hkey.suffix.length_le
          simp only [List.tail_cons, List.length_cons] at hle
          exact ih (.index h₀ hkind hkey hc) (by omega) (by omega)
      · next hkind =>
        refine .advance_bind (.bind ?_ (finds_arguments hi t.line n hk).within
          fun es rest h => ?_)
        · have harguments := breaks_arguments hi hb t.line hk (n := n) (by omega)
          refine .after h₀.piece (.within (b := .round) hkind harguments) ?_
          rintro a _ c he ⟨opener, mid, rfl, ho, closer, ⟨es, hes⟩, hc⟩
          exact ⟨_, .call he ho hes hc⟩
        · obtain ⟨closer, hc, hes⟩ := h
          have hle := hes.suffix.length_le
          simp only [List.length_cons] at hle
          exact ih (.call h₀ hkind hes hc) (by omega) (by omega)
      · exact .pure

theorem breaks_operand (hi : Reads inner k) (hb : BreaksBelow inner k) {n : Nat}
    (hk : ts.length ≤ k) (hn : ts.length ≤ n) :
    Breaks group (SomeExpr .operand) ts (operand n inner) ts := by
  refine .bind ((breaks_primary hi hb hk).mono fun _ _ he => he.widen (by decide))
    (finds_primary hi hk) fun e mid he => ?_
  have hle := he.suffix.length_le
  exact breaks_suffixes hi hb (.primary he) (by omega) (by omega)

/-- Operators and right operands behind what is read already, which satisfies `I`. -/
theorem breaks_chain {level : Parser Expr} {accepts : BinaryOp → Bool}
    {P : List Token → List Token → Prop} {ts₀ : List Token} {I : Expr → List Token → Prop}
    (hbreaks : ∀ left t us op, I left (t :: us) → operatorOf? t = some op → accepts op = true →
      us.length ≤ k → Breaks group P ts₀ level us)
    (step : ∀ left t us op, I left (t :: us) → operatorOf? t = some op → accepts op = true →
      us.length ≤ k → Finds level us fun right rest =>
        I (.binary left op right t.line) rest ∧ rest.length ≤ us.length)
    {n : Nat} {left : Expr} (h : I left ts) (hk : ts.length ≤ k) :
    Breaks group P ts₀ (chain level accepts n left) ts := by
  induction n generalizing left ts with
  | zero => exact .pure
  | succ n ih =>
    apply Breaks.peek_bind
    split
    · next op hop =>
      split
      · next haccepts =>
        have hkind := (operatorOf?_eq_some.1 hop).1
        have hlt := length_tail_lt ts (by simp [hkind])
        rw [cons_of_kind hkind (by decide)] at h
        have hle : ts.tail.length ≤ k := by omega
        refine .advance_bind (.bind (hbreaks left _ _ op h hop haccepts hle)
          (step left _ _ op h hop haccepts hle) fun right rest hr => ?_)
        exact ih hr.1 (by omega)
      · exact .pure
    · exact .pure

theorem breaks_product (hi : Reads inner k) (hb : BreaksBelow inner k) {n : Nat}
    (hk : ts.length ≤ k) (hn : ts.length ≤ n) :
    Breaks group (SomeExpr .product) ts (product n inner) ts := by
  refine .bind ((breaks_operand hi hb hk hn).mono fun _ _ he => he.widen (by decide))
    (finds_operand hi hk hn) fun e mid he => ?_
  have hle := he.1.suffix.length_le
  refine breaks_chain (k := ts.length)
    (I := fun left us => Spells ts (.expr .product left) us) ?_ ?_ (.operand he.1) hle
  · intro left t us op hleft hop haccepts hus
    obtain ⟨hkind, htext⟩ := operatorOf?_eq_some.1 hop
    refine .after (hleft.piece.trans (.token hkind rfl us))
      (breaks_operand hi hb (by omega) (by omega)) ?_
    rintro a b c ⟨_, hl, rfl⟩ ⟨r, hr⟩
    exact ⟨_, .times hl hkind htext (isMultiplicative_iff.1 haccepts) hr⟩
  · intro left t us op hleft hop haccepts hus
    obtain ⟨hkind, htext⟩ := operatorOf?_eq_some.1 hop
    refine (finds_operand hi (by omega) (by omega)).mono fun right rest hr => ⟨?_, ?_⟩
    · exact .times hleft hkind htext (isMultiplicative_iff.1 haccepts) hr.1
    · exact hr.1.suffix.length_le

theorem breaks_sum (hi : Reads inner k) (hb : BreaksBelow inner k) {n : Nat}
    (hk : ts.length ≤ k) (hn : ts.length ≤ n) :
    Breaks group (SomeExpr .sum) ts (sum n inner) ts := by
  refine .bind ((breaks_product hi hb hk hn).mono fun _ _ he => he.widen (by decide))
    (finds_product hi hk hn) fun e mid he => ?_
  have hle := he.1.suffix.length_le
  refine breaks_chain (k := ts.length)
    (I := fun left us => Spells ts (.expr .sum left) us) ?_ ?_ (.product he.1) hle
  · intro left t us op hleft hop haccepts hus
    obtain ⟨hkind, htext⟩ := operatorOf?_eq_some.1 hop
    refine .after (hleft.piece.trans (.token hkind rfl us))
      (breaks_product hi hb (by omega) (by omega)) ?_
    rintro a b c ⟨_, hl, rfl⟩ ⟨r, hr⟩
    exact ⟨_, .plus hl hkind htext (isAdditive_iff.1 haccepts) hr⟩
  · intro left t us op hleft hop haccepts hus
    obtain ⟨hkind, htext⟩ := operatorOf?_eq_some.1 hop
    refine (finds_product hi (by omega) (by omega)).mono fun right rest hr => ⟨?_, ?_⟩
    · exact .plus hleft hkind htext (isAdditive_iff.1 haccepts) hr.1
    · exact hr.1.suffix.length_le

/-! ## Object literals -/

def SomeProperties (ts rest : List Token) : Prop := ∃ ps, Spells ts (.properties ps) rest

/-- What follows the key of a field. -/
def ColonValue (ts rest : List Token) : Prop :=
  ∃ colon mid e, ts = colon :: mid ∧ colon.kind = .colon ∧ Spells mid (.expr .expression e) rest

theorem breaks_colon {ts : List Token} :
    Breaks group ColonValue ts (expect .colon (.token .colon)) ts := by
  have hcolon : Breaks group (Single .colon) ts (expect .colon (.token .colon)) ts :=
    breaks_expect (t := ⟨.colon, ":", 1⟩) ⟨':', rfl, rfl⟩ _
  refine hcolon.before (legal_single anyName_legal) ?_
  rintro a c ⟨colon, rfl, hc⟩
  obtain ⟨e, he⟩ := spells_anyName .expression c
  exact ⟨colon, _, e, rfl, hc, he⟩

/-- Nothing has to follow. -/
theorem completable_nothing : Completable Eq [] := ⟨[], nofun, fun _ => rfl⟩

/-- Properties can end behind one of them. -/
theorem Spells.someProperties {us rest : List Token} {p : Property}
    (h : Spells us (.property p) rest) : SomeProperties us rest :=
  ⟨[p], .lastProperty h⟩

/-- A comma goes on to other properties. -/
theorem breaks_moreProperties {p : Property} {mid : List Token} {q : Parser (List Property)}
    (hp : Spells ts (.property p) mid) (hcomma : (next mid).kind = .comma)
    (h : Breaks group SomeProperties mid.tail q mid.tail) :
    Breaks group SomeProperties ts q mid.tail := by
  refine .after (hp.piece.trans (.next hcomma rfl)) h ?_
  rintro a b c ⟨_, hp, rfl⟩ ⟨ps, hps⟩
  exact ⟨_, .propertyThen hp hcomma hps⟩

theorem breaks_properties_end (n : Nat) (h : (next ts).kind = .rightBrace ∨ (next ts).kind = .eof)
    {P : List Token → List Token → Prop} {ts₀ : List Token} :
    Breaks group P ts₀ (properties inner n) ts := by
  intro _ e rest he
  rw [properties_of_end inner n h] at he
  cases he

theorem breaks_properties (hi : Reads inner k) (hb : BreaksBelow inner k) {n : Nat}
    (hk : ts.length ≤ k) : Breaks group SomeProperties ts (properties inner n) ts := by
  induction n generalizing ts with
  | zero => exact .pure
  | succ n ih =>
    apply Breaks.peek_bind
    split
    · exact .pure
    · refine .bind ?_ finds_identifier fun name mid hname => ?_
      · refine breaks_identifier.mono ?_
        rintro a c ⟨key, rfl, hkey⟩
        exact (Spells.shorthand hkey).someProperties
      · obtain ⟨key, rfl, hkey, rfl⟩ := hname
        simp only [List.length_cons] at hk
        have hshort : Spells (key :: mid) (.property (.shorthand key.text key.line)) mid :=
          .shorthand hkey
        apply Breaks.peekKind_bind
        split
        · next hcomma =>
          have htail := length_tail_lt mid (by simp [hcomma])
          exact .advance_bind (breaks_moreProperties hshort hcomma (ih (by omega))).bind_pure
        · split
          · next hclose => exact (breaks_properties_end n (.inl hclose)).bind_pure
          · -- whatever is missing behind the key, the literal can end with the field
            have hfront : Piece (fun a c => a = key :: c) (key :: mid) mid := .token hkey rfl mid
            refine .bind ?_ (finds_expect _ (by decide)) fun colon us hcolon => ?_
            · refine .after hfront breaks_colon ?_
              rintro _ _ c rfl ⟨colon, mid, e, rfl, hc, he⟩
              exact (Spells.field hkey hc he).someProperties
            · obtain ⟨rfl, hcolon⟩ := hcolon
              simp only [List.length_cons] at hk
              refine .bind ?_ (hi us (by omega)) fun value mid hvalue => ?_
              · refine .after (hfront.trans (.token hcolon rfl us)) (hb us (by omega)).loosen ?_
                rintro _ _ c ⟨_, rfl, rfl⟩ ⟨e, he⟩
                exact (Spells.field hkey hcolon he).someProperties
              · have hfield : Spells (key :: colon :: us)
                    (.property (.field key.text value key.line)) mid := .field hkey hcolon hvalue.1
                have hle := hvalue.1.suffix.length_le
                apply Breaks.peekKind_bind
                split
                · next hcomma =>
                  have htail := length_tail_lt mid (by simp [hcomma])
                  exact .advance_bind
                    (breaks_moreProperties hfield hcomma (ih (by omega))).bind_pure
                · split
                  · next hclose => exact (breaks_properties_end n hclose).bind_pure
                  · refine .after hfield.piece (.refuse completable_nothing) ?_
                    rintro a b _ hp rfl
                    exact hp.someProperties

theorem breaks_objectLevel (hi : Reads inner k) (hb : BreaksBelow inner k) {n : Nat}
    (hk : ts.length ≤ k) (hn : ts.length ≤ n) :
    Breaks group (SomeExpr .objectLevel) ts (objectLevel n inner) ts := by
  apply Breaks.peek_bind
  split
  · next hkind =>
    have hcons := cons_of_kind hkind (by decide)
    have htail := length_tail_lt ts (by simp [hkind])
    have hle : ts.tail.length ≤ k := by omega
    rw [hcons]
    refine .advance_bind (Breaks.mono (.within (b := .curly) hkind
      (breaks_closed (breaks_properties hi hb hle) (finds_properties hi hle)
        fun ps _ hps => hps.piece.mono fun _ _ h => ⟨ps, h⟩)) ?_)
    rintro a c ⟨opener, mid, rfl, ho, closer, ⟨ps, hps⟩, hc⟩
    exact ⟨_, .object ho hps hc⟩
  · exact (breaks_sum hi hb hk hn).mono fun _ _ he => he.widen (by decide)

theorem breaks_assignment (hi : Reads inner k) (hb : BreaksBelow inner k) {n : Nat}
    (hk : ts.length ≤ k) (hn : ts.length ≤ n) :
    Breaks group (SomeExpr .expression) ts (assignment n inner) ts := by
  refine .bind ((breaks_objectLevel hi hb hk hn).mono fun _ _ he => he.widen (by decide))
    (finds_objectLevel hi hk hn) fun target mid htarget => .peek_bind ?_
  have hlt := htarget.1.length_lt
  split
  · next hkind =>
    have htail := length_tail_lt mid (by simp [hkind])
    have hfront := htarget.1.piece.trans (.next hkind rfl)
    refine .advance_bind (Breaks.after hfront (hb mid.tail (by omega)).loosen ?_).bind_pure
    rintro a b c ⟨_, hl, rfl⟩ ⟨e, he⟩
    exact ⟨_, .assign hl hkind he⟩
  · exact .pure

end Levels

theorem breaks_expressionAt {n : Nat} {ts : List Token} (hn : ts.length ≤ n) :
    Breaks group (SomeExpr .expression) ts (expressionAt n) ts := by
  induction n generalizing group ts with
  | zero => exact .refuse (completable_expr .expression)
  | succ n ih =>
    have hi : Reads (expressionAt n) ts.length := fun us hus => finds_expressionAt (by omega)
    exact breaks_assignment hi (fun us hus => ih (by omega)) (Nat.le_refl _) hn

/-! ## Statements -/

def SomeStatement (ts rest : List Token) : Prop := ∃ s, Statement false ts s rest

def SomeStatements (ts rest : List Token) : Prop := ∃ ss, Statements false ts ss rest

def SomeParameters (ts rest : List Token) : Prop := ∃ params, Parameters ts params rest

/-- What follows the name of a function. -/
def SignatureBody (ts rest : List Token) : Prop :=
  ∃ mid, Enclosed .round SomeParameters ts mid ∧ Enclosed .curly SomeStatements mid rest

theorem enclosed_empty {P : List Token → List Token → Prop} (h : ∀ a, P a a) {b : Bracket}
    {opener closer : Token} (ho : opener.kind = b.opening) (hc : closer.kind = b.closing)
    (rest : List Token) : Enclosed b P (opener :: closer :: rest) rest :=
  ⟨opener, _, rfl, ho, closer, h _, hc⟩

theorem parameters_empty {opener closer : Token} (ho : opener.kind = .leftParen)
    (hc : closer.kind = .rightParen) (rest : List Token) :
    Enclosed .round SomeParameters (opener :: closer :: rest) rest :=
  enclosed_empty (b := .round) (fun _ => ⟨[], .none⟩) ho hc rest

theorem body_empty {opener closer : Token} (ho : opener.kind = .leftBrace)
    (hc : closer.kind = .rightBrace) (rest : List Token) :
    Enclosed .curly SomeStatements (opener :: closer :: rest) rest :=
  enclosed_empty (b := .curly) (fun _ => ⟨[], .nil⟩) ho hc rest

theorem SomeStatement.function {keyword name : Token} {ts rest : List Token}
    (hk : keyword.kind = .fnKeyword) (hn : name.kind = .identifier) (h : SignatureBody ts rest) :
    SomeStatement (keyword :: name :: ts) rest := by
  obtain ⟨_, ⟨opener, us, rfl, ho, closer, ⟨params, hp⟩, hc⟩, hbody⟩ := h
  obtain ⟨opener', vs, rfl, ho', closer', ⟨body, hb⟩, hc'⟩ := hbody
  exact ⟨_, .function hk hn ho hp hc ho' hb hc'⟩

theorem SomeStatement.of_expr {ts rest : List Token} (h : SomeExpr .expression ts rest) :
    SomeStatement ts rest := by
  obtain ⟨e, he⟩ := h
  exact ⟨_, .expr he fun hgreedy => absurd hgreedy Bool.false_ne_true⟩

/-- On fewer than `k` tokens, `item` fails as a statement does. -/
def BreaksStatement (item : Parser Stmt) (k : Nat) : Prop :=
  ∀ ts : List Token, ts.length < k → Breaks none SomeStatement ts item ts

section Statements

variable {ts : List Token} {item : Parser Stmt} {k : Nat}

theorem breaks_declaration {n : Nat} {constant : Bool}
    (hk : (next ts).kind = declarationKind constant) (hn : ts.length ≤ n) :
    Breaks group SomeStatement ts (declaration n constant) ts := by
  have hkeyword : Piece (fun a c => a = next ts :: c) ts ts.tail :=
    .next hk (isPlain_declarationKind constant)
  have hlt := length_tail_lt ts (hk ▸ declarationKind_ne_eof constant)
  refine .peek_bind (.advance_bind (.bind ?_ finds_identifier fun _ mid hname => ?_))
  · refine .after hkeyword breaks_identifier ?_
    rintro _ _ c rfl ⟨name, rfl, hname⟩
    exact ⟨_, .declare hk hname⟩
  · obtain ⟨name, hts, hname, rfl⟩ := hname
    rw [hts] at hkeyword hlt
    apply Breaks.peekKind_bind
    split
    · next hequals =>
      have hle : mid.tail.length ≤ n := by
        rw [List.length_cons] at hlt
        rw [List.length_tail]
        omega
      have hfront := hkeyword.trans ((Piece.token hname rfl mid).trans (.next hequals rfl))
      refine .advance_bind (Breaks.after hfront (breaks_expressionAt hle) ?_).bind_pure
      rintro _ _ c ⟨_, rfl, _, rfl, rfl⟩ ⟨e, he⟩
      exact ⟨_, .declareAs hk hname hequals he nofun⟩
    · exact .pure

theorem breaks_parameters (line : Nat) {n : Nat} (hn : ts.length ≤ n) :
    Breaks (some (.round, line)) (Closed .round SomeParameters) ts
      (commaList identifier .round line n) ts := by
  have hitems := breaks_items (k := ts.length + 1)
    (P := fun us name rest => ∃ t : Token, us = t :: rest ∧ t.kind = .identifier ∧ name = t.text)
    (L := fun us params rest => Parameters us params rest)
    (fun us _ => breaks_identifier.mono (by
      rintro a c ⟨t, rfl, ht⟩
      exact ⟨t.text, t, rfl, ht, rfl⟩))
    (fun us _ => finds_identifier)
    (by
      rintro _ name rest ⟨t, rfl, ht, rfl⟩
      exact (Piece.token ht rfl rest).mono fun a c h => ⟨t, h, ht, rfl⟩)
    ⟨[anyName], legal_single anyName_legal, fun rest => ⟨_, anyName, rfl, rfl, rfl⟩⟩
    (by
      rintro _ _ rest ⟨t, rfl, -, -⟩
      exact Nat.lt_succ_self _)
    (by
      rintro _ _ rest ⟨t, rfl, ht, rfl⟩
      exact .last ht)
    (by
      rintro _ _ comma mid y ys rest ⟨t, rfl, ht, rfl⟩ hc hps
      exact .cons ht hc hps)
    .round line (Nat.lt_succ_self _) hn
  refine breaks_commaList (hitems.mono ?_)
  rintro a c ⟨closer, ⟨p, ps, hps⟩, hc⟩
  exact ⟨closer, ⟨p :: ps, hps⟩, hc⟩

theorem breaks_openParameters :
    Breaks group SignatureBody ts (expect .leftParen (.token .leftParen)) ts := by
  have hopener : Breaks group (Single .leftParen) ts (expect .leftParen (.token .leftParen)) ts :=
    breaks_expect (Bracket.opener_legal .round) _
  have hrest : ∀ t ∈ [Bracket.round.closer, Bracket.curly.opener, Bracket.curly.closer],
      t.Legal := by
    simp [Bracket.opener_legal, Bracket.closer_legal]
  refine hopener.before hrest ?_
  rintro a c ⟨opener, rfl, ho⟩
  exact ⟨_, parameters_empty ho rfl _, body_empty rfl rfl c⟩

theorem breaks_enclosedParameters {opener : Token} (ho : opener.kind = .leftParen) {n : Nat}
    (hn : ts.length ≤ n) :
    Breaks group SignatureBody (opener :: ts)
      (within .round opener.line (commaList identifier .round opener.line n)) ts := by
  have hrest : ∀ t ∈ [Bracket.curly.opener, Bracket.curly.closer], t.Legal := by
    simp [Bracket.opener_legal, Bracket.closer_legal]
  exact (Breaks.within (b := .round) ho (breaks_parameters opener.line hn)).before hrest
    fun a c hs => ⟨_, hs, body_empty rfl rfl c⟩

/-- Semicolons in front of statements. -/
theorem piece_semicolons (ts : List Token) :
    Piece (fun a b => ∀ c, SomeStatements b c → SomeStatements a c) ts
      (ts.dropWhile (·.kind == .semicolon)) := by
  induction ts with
  | nil => exact .nil fun _ _ h => h
  | cons t ts ih =>
    rw [List.dropWhile_cons]
    split
    · next hkind =>
      have hkind : t.kind = .semicolon := by simpa using hkind
      refine ((Piece.token hkind rfl ts).trans ih).mono ?_
      rintro _ b ⟨a, rfl, h⟩ c hb
      obtain ⟨ss, hss⟩ := h c hb
      exact ⟨ss, .semicolon hkind hss⟩
    · exact .nil fun _ _ h => h

theorem breaks_statements (hi : ReadsStatement item k) (hb : BreaksStatement item k)
    {ends : TokenKind → Bool} {n : Nat} (hk : ts.length < k) :
    Breaks group SomeStatements ts (statements item ends n) ts := by
  induction n generalizing ts with
  | zero => exact .pure
  | succ n ih =>
    have hle := length_dropSemicolons_le ts
    refine .skipSemicolons_bind (.after (piece_semicolons ts) (.peekKind_bind ?_)
      fun _ _ c h => h c)
    split
    · exact .pure
    · refine .bind ?_ (hi _ (by omega)) fun s mid hs => ?_
      · refine (hb _ (by omega)).loosen.mono ?_
        rintro a c ⟨s, hs⟩
        exact ⟨[s], .cons hs .nil⟩
      · have hlt := hs.length_lt
        refine (Breaks.after hs.weaken.piece (ih (by omega)) ?_).bind_pure
        rintro a b c hs ⟨ss, hss⟩
        exact ⟨s :: ss, .cons hs hss⟩

theorem breaks_block (hi : ReadsStatement item k) (hb : BreaksStatement item k) {n : Nat}
    (hk : ts.length ≤ k) (hn : ts.length ≤ n) :
    Breaks group (Enclosed .curly SomeStatements) ts (block n item) ts := by
  refine .bind ?_ (finds_expect _ (by decide)) fun opener mid h => ?_
  · have hopener : Breaks group (Single .leftBrace) ts
        (expect .leftBrace (.token .leftBrace)) ts := breaks_expect (Bracket.opener_legal .curly) _
    refine hopener.before (legal_single (Bracket.closer_legal .curly)) ?_
    rintro a c ⟨opener, rfl, ho⟩
    exact body_empty ho rfl c
  · obtain ⟨rfl, ho⟩ := h
    simp only [List.length_cons] at hk hn
    exact .within (b := .curly) ho (breaks_closed (breaks_statements hi hb (by omega))
      (finds_statements hi rfl (by omega) (by omega))
      fun body _ hss => hss.1.weaken.piece.mono fun _ _ h => ⟨body, h⟩)

theorem breaks_function (hi : ReadsStatement item k) (hb : BreaksStatement item k) {n : Nat}
    (hfn : (next ts).kind = .fnKeyword) (hk : ts.length ≤ k) (hn : ts.length ≤ n) :
    Breaks group SomeStatement ts (function n item) ts := by
  have hkeyword : Piece (fun a c => a = next ts :: c) ts ts.tail := .next hfn rfl
  have hlt := length_tail_lt ts (by simp [hfn])
  refine .peek_bind (.advance_bind (.bind ?_ finds_identifier fun _ rest₁ hname => ?_))
  · have hrest : ∀ t ∈ [Bracket.round.opener, Bracket.round.closer, Bracket.curly.opener,
        Bracket.curly.closer], t.Legal := by
      simp [Bracket.opener_legal, Bracket.closer_legal]
    have hheader : Breaks group (fun a c => ∃ b, a = next ts :: b ∧ Single .identifier b c) ts
        identifier ts.tail := .after hkeyword breaks_identifier fun _ b _ ha hb => ⟨b, ha, hb⟩
    refine hheader.before hrest ?_
    rintro a c ⟨_, rfl, name, rfl, hname⟩
    exact .function hfn hname ⟨_, parameters_empty rfl rfl _, body_empty rfl rfl c⟩
  · obtain ⟨name, hts, hname, rfl⟩ := hname
    rw [hts] at hkeyword hlt
    -- from here on, only what follows the name matters
    have hfront := hkeyword.trans (.token hname rfl rest₁)
    have hjoin (a b c : List Token) (ha : ∃ b', a = next ts :: b' ∧ b' = name :: b)
        (h : SignatureBody b c) : SomeStatement a c := by
      obtain ⟨_, rfl, rfl⟩ := ha
      exact .function hfn hname h
    refine .bind (.after hfront breaks_openParameters hjoin) (finds_expect _ (by decide))
      fun opener rest₂ h => ?_
    obtain ⟨rfl, ho⟩ := h
    simp only [List.length_cons] at hlt
    refine .bind (.after hfront (breaks_enclosedParameters ho (by omega)) hjoin)
      (finds_parameters _ n).within fun params rest₃ h => ?_
    obtain ⟨closer, hc, hp⟩ := h
    have hle := hp.detached.suffix.length_le
    simp only [List.length_cons] at hle
    have hparams : Piece SomeParameters rest₂ (closer :: rest₃) :=
      hp.piece.mono fun _ _ h => ⟨params, h⟩
    have hsignature := hfront.trans (hparams.enclosed (b := .round) ho hc)
    refine (Breaks.after hsignature (breaks_block hi hb (by omega) (by omega)) ?_).bind_pure
    rintro a b c ⟨a', ha, hs⟩ hbody
    exact hjoin a a' c ha ⟨b, hs, hbody⟩

theorem breaks_statementWith (hi : ReadsStatement item k) (hb : BreaksStatement item k) {n : Nat}
    (hk : ts.length ≤ k) (hn : ts.length ≤ n) :
    Breaks group SomeStatement ts (statementWith n item) ts := by
  apply Breaks.peek_bind
  split
  · next hkind => exact @breaks_declaration _ _ _ false hkind hn
  · next hkind => exact @breaks_declaration _ _ _ true hkind hn
  · next hkind => exact breaks_function hi hb hkind hk hn
  · exact ((breaks_expressionAt hn).mono fun _ _ he => .of_expr he).bind_pure

end Statements

theorem breaks_statementAt {n : Nat} {ts : List Token} (hn : ts.length ≤ n) :
    Breaks group SomeStatement ts (statementAt n) ts := by
  induction n generalizing group ts with
  | zero =>
    exact .refuse ⟨[anyName], legal_single anyName_legal, fun rest =>
      .of_expr (spells_anyName .expression rest)⟩
  | succ n ih =>
    have hi : ReadsStatement (statementAt n) ts.length := fun us hus => finds_statementAt (by omega)
    exact breaks_statementWith hi (fun us hus => ih (by omega)) (Nat.le_refl _) hn

/-- A program fails where it could still be completed, with the innermost open bracket. -/
theorem breaks_program (ts : List Token) : Breaks none SomeStatements ts program ts := by
  have hi : ReadsStatement (statementAt ts.length) (ts.length + 1) :=
    fun us hus => finds_statementAt (Nat.le_of_lt_succ hus)
  have hb : BreaksStatement (statementAt ts.length) (ts.length + 1) :=
    fun us hus => breaks_statementAt (Nat.le_of_lt_succ hus)
  exact breaks_statements hi hb (Nat.lt_succ_self _)

end ScopeScript.Grammar
