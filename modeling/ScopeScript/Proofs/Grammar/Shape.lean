import ScopeScript.Proofs.Grammar.Rules

/-!
# The tokens of a phrase

A phrase is the same phrase whatever follows it, and no end token is part of it: its tokens can be
`Detached`.  An expression starts like an operand or with `{`; it ends in an operand or with `}`,
never both.
-/

namespace ScopeScript.Grammar

open ScopeScript.Parser (next)

/-! ## Detaching -/

/-- A change of what follows that does not bring in a `(` where none was. -/
def Fits (rest rest' : List Token) : Prop :=
  (next rest').kind = .leftParen → (next rest).kind = .leftParen

/-- There is no end token in `ts` before `rest`, and the tokens there are `P` before anything
else that fits. -/
def Detached (P : List Token → List Token → Prop) (ts rest : List Token) : Prop :=
  ∃ us, ts = us ++ rest ∧ (∀ t ∈ us, t.kind ≠ .eof) ∧
    ∀ rest', Fits rest rest' → P (us ++ rest') rest'

namespace Detached

variable {P Q R : List Token → List Token → Prop} {ts mid rest : List Token}

theorem suffix (h : Detached P ts rest) : rest <:+ ts := by
  obtain ⟨us, rfl, -, -⟩ := h
  exact List.suffix_append us rest

theorem mono (h : Detached P ts rest) (hPQ : ∀ a b, P a b → Q a b) : Detached Q ts rest := by
  obtain ⟨us, hu, hne, hP⟩ := h
  exact ⟨us, hu, hne, fun rest' hf => hPQ _ _ (hP rest' hf)⟩

theorem nil (h : ∀ a, P a a) : Detached P rest rest :=
  ⟨[], rfl, by simp, fun rest' _ => h rest'⟩

theorem token {t : Token} {kind : TokenKind} (h : t.kind = kind) (hk : kind ≠ .eof) :
    Detached (fun a b => a = t :: b) (t :: rest) rest :=
  ⟨[t], rfl, by simpa [h] using hk, fun _ _ => rfl⟩

theorem trans (h : Detached P ts mid) (h' : Detached Q mid rest) :
    Detached (fun a c => ∃ b, P a b ∧ Q b c) ts rest := by
  obtain ⟨us, rfl, hne, hP⟩ := h
  obtain ⟨vs, rfl, hne', hQ⟩ := h'
  refine ⟨us ++ vs, by rw [List.append_assoc], ?_, fun rest' hf => ?_⟩
  · intro t ht
    rcases List.mem_append.1 ht with ht | ht
    · exact hne t ht
    · exact hne' t ht
  · have hfits : Fits (vs ++ rest) (vs ++ rest') := by
      cases vs with
      | nil => exact hf
      | cons v vs => exact id
    rw [List.append_assoc]
    exact ⟨vs ++ rest', hP _ hfits, hQ rest' hf⟩

/-- What cannot be read off an end token has a token of its own. -/
theorem length_lt (h : Detached P ts rest) (hP : ∀ us, P us [] → (next us).kind ≠ .eof) :
    rest.length < ts.length := by
  obtain ⟨us, rfl, -, hs⟩ := h
  have hne : us ≠ [] := by
    rintro rfl
    exact hP [] (hs [] nofun) rfl
  have hpos := List.length_pos_iff.2 hne
  rw [List.length_append]
  omega

end Detached

open Detached in
theorem Spells.detached {ts rest : List Token} {phrase : Phrase} (h : Spells ts phrase rest) :
    Detached (fun a b => Spells a phrase b) ts rest := by
  induction h with
  | name h => exact (token h (by decide)).mono fun _ _ he => he ▸ .name h
  | number h hx => exact (token h (by decide)).mono fun _ _ he => he ▸ .number h hx
  | string h => exact (token h (by decide)).mono fun _ _ he => he ▸ .string h
  | group ho _ hc ih =>
    refine ((token ho (by decide)).trans (ih.trans (token hc (by decide)))).mono ?_
    rintro _ _ ⟨_, rfl, _, he, rfl⟩
    exact .group ho he hc
  | primary _ ih => exact ih.mono fun _ _ he => .primary he
  | dot _ ht hn ih =>
    refine (ih.trans ((token ht (by decide)).trans (token hn (by decide)))).mono ?_
    rintro _ _ ⟨_, he, _, rfl, rfl⟩
    exact .dot he ht hn
  | index _ ho _ hc ihe ihk =>
    refine (ihe.trans ((token ho (by decide)).trans (ihk.trans (token hc (by decide))))).mono ?_
    rintro _ _ ⟨_, he, _, rfl, _, hk, rfl⟩
    exact .index he ho hk hc
  | call _ ho _ hc ihf iha =>
    refine (ihf.trans ((token ho (by decide)).trans (iha.trans (token hc (by decide))))).mono ?_
    rintro _ _ ⟨_, hf, _, rfl, _, ha, rfl⟩
    exact .call hf ho ha hc
  | operand _ ih => exact ih.mono fun _ _ he => .operand he
  | times _ hk ht hop _ ihl ihr =>
    refine (ihl.trans ((token hk (by decide)).trans ihr)).mono ?_
    rintro _ _ ⟨_, hl, _, rfl, hr⟩
    exact .times hl hk ht hop hr
  | product _ ih => exact ih.mono fun _ _ he => .product he
  | plus _ hk ht hop _ ihl ihr =>
    refine (ihl.trans ((token hk (by decide)).trans ihr)).mono ?_
    rintro _ _ ⟨_, hl, _, rfl, hr⟩
    exact .plus hl hk ht hop hr
  | object ho _ hc ih =>
    refine ((token ho (by decide)).trans (ih.trans (token hc (by decide)))).mono ?_
    rintro _ _ ⟨_, rfl, _, hp, rfl⟩
    exact .object ho hp hc
  | sum _ ih => exact ih.mono fun _ _ he => .sum he
  | objectLevel _ ih => exact ih.mono fun _ _ he => .objectLevel he
  | assign _ ht _ ihl ihr =>
    refine (ihl.trans ((token ht (by decide)).trans ihr)).mono ?_
    rintro _ _ ⟨_, hl, _, rfl, hr⟩
    exact .assign hl ht hr
  | noArguments => exact nil fun _ => .noArguments
  | lastArgument _ ih => exact ih.mono fun _ _ he => .lastArgument he
  | argument _ hc _ ihe ihes =>
    refine (ihe.trans ((token hc (by decide)).trans ihes)).mono ?_
    rintro _ _ ⟨_, he, _, rfl, hes⟩
    exact .argument he hc hes
  | shorthand h => exact (token h (by decide)).mono fun _ _ he => he ▸ .shorthand h
  | field hk hc _ ih =>
    refine ((token hk (by decide)).trans ((token hc (by decide)).trans ih)).mono ?_
    rintro _ _ ⟨_, rfl, _, rfl, he⟩
    exact .field hk hc he
  | noProperties => exact nil fun _ => .noProperties
  | lastProperty _ ih => exact ih.mono fun _ _ hp => .lastProperty hp
  | propertyThen _ hc _ ihp ihps =>
    refine (ihp.trans ((token hc (by decide)).trans ihps)).mono ?_
    rintro _ _ ⟨_, hp, _, rfl, hps⟩
    exact .propertyThen hp hc hps

theorem Spells.suffix {ts rest : List Token} {phrase : Phrase} (h : Spells ts phrase rest) :
    rest <:+ ts :=
  h.detached.suffix

/-- Whether an expression ends in an operand is seen on its own tokens. -/
theorem EndsInOperand.of_append {us rest rest' : List Token} (hf : Fits rest' rest)
    (h : EndsInOperand (us ++ rest') rest') : EndsInOperand (us ++ rest) rest := by
  obtain ⟨_, e, hsuffix, hs⟩ := h
  obtain ⟨vs, rfl, -, hv⟩ := hs.detached
  refine ⟨vs ++ rest, e, ?_, hv rest hf⟩
  obtain ⟨ws, hw⟩ := hsuffix
  rw [← List.append_assoc] at hw
  exact ⟨ws, by rw [← List.append_cancel_right hw, List.append_assoc]⟩

theorem Level.rank_le_expression (level : Level) : level.rank ≤ expression.rank := by
  cases level <;> decide

/-- What stands at one level stands at every looser one. -/
theorem Spells.widen {level level' : Level} {ts rest : List Token} {e : Expr}
    (h : Spells ts (.expr level e) rest) (hle : level.rank ≤ level'.rank) :
    Spells ts (.expr level' e) rest := by
  cases level <;> cases level' <;> simp [Level.rank] at hle
  all_goals
    repeat
      first
      | exact h
      | apply Spells.objectLevel
      | apply Spells.sum
      | apply Spells.product
      | apply Spells.operand
      | apply Spells.primary

/-! ## First tokens -/

def startsOperand : TokenKind → Bool
  | .identifier | .number | .string | .leftParen => true
  | _ => false

def startsExpression (kind : TokenKind) : Bool := startsOperand kind || kind == .leftBrace

theorem ne_of_starts {starts : TokenKind → Bool} {kind other : TokenKind} (h : starts kind)
    (hother : starts other = false) : kind ≠ other := by
  rintro rfl
  rw [hother] at h
  cases h

/-- How the tokens of a phrase can start.  Lists may be empty. -/
def Phrase.StartsWith : Phrase → TokenKind → Prop
  | .expr level _, kind =>
    startsExpression kind ∧ (level.rank ≤ Level.sum.rank → startsOperand kind)
  | .arguments es, kind => es ≠ [] → startsExpression kind
  | .property _, kind => kind = .identifier
  | .properties ps, kind => ps ≠ [] → kind = .identifier

theorem Spells.startsWith {ts rest : List Token} {phrase : Phrase} (h : Spells ts phrase rest) :
    phrase.StartsWith (next ts).kind := by
  have operand {kind : TokenKind} {level : Level} {e : Expr} (hk : startsOperand kind) :
      (Phrase.expr level e).StartsWith kind := by
    refine ⟨?_, fun _ => hk⟩
    unfold startsExpression
    rw [hk, Bool.true_or]
  induction h with
  | name h | number h | string h =>
    apply operand
    rw [Parser.next_cons, h]
    rfl
  | group ho =>
    apply operand
    rw [Parser.next_cons, ho]
    rfl
  | primary _ ih | dot _ _ _ ih | operand _ ih | product _ ih =>
    exact operand (ih.2 (by decide))
  | index _ _ _ _ ih | call _ _ _ _ ih | times _ _ _ _ _ ih | plus _ _ _ _ _ ih =>
    exact operand (ih.2 (by decide))
  | object ho =>
    refine ⟨?_, fun hl => absurd hl (by decide)⟩
    rw [Parser.next_cons, ho]
    rfl
  | sum _ ih => exact operand (ih.2 (by decide))
  | objectLevel _ ih | assign _ _ _ ih => exact ⟨ih.1, fun hl => absurd hl (by decide)⟩
  | noArguments => exact fun h => absurd rfl h
  | lastArgument _ ih | argument _ _ _ ih => exact fun _ => ih.1
  | shorthand h | field h => exact h
  | noProperties => exact fun h => absurd rfl h
  | lastProperty _ ih | propertyThen _ _ _ ih => exact fun _ => ih

/-- Every expression has a token. -/
theorem Spells.length_lt {ts rest : List Token} {level : Level} {e : Expr}
    (h : Spells ts (.expr level e) rest) : rest.length < ts.length := by
  refine h.detached.length_lt fun us hus heof => ?_
  exact ne_of_starts hus.startsWith.1 rfl heof

/-! ## Last tokens -/

/-- The last token of `ts` before `rest` is of the given kind. -/
def EndsWith (kind : TokenKind) (ts rest : List Token) : Prop :=
  ∃ t : Token, t.kind = kind ∧ t :: rest <:+ ts

theorem EndsWith.unique {k k' : TokenKind} {ts rest : List Token} (h : EndsWith k ts rest)
    (h' : EndsWith k' ts rest) : k = k' := by
  obtain ⟨t, rfl, ht⟩ := h
  obtain ⟨t', rfl, ht'⟩ := h'
  have heq : t :: rest = t' :: rest :=
    (List.suffix_of_suffix_length_le ht ht' (by simp)).eq_of_length (by simp)
  rw [(List.cons.inj heq).1]

theorem EndsWith.of_suffix {k : TokenKind} {ts us rest : List Token} (h : EndsWith k us rest)
    (hs : us <:+ ts) : EndsWith k ts rest := by
  obtain ⟨t, ht, hr⟩ := h
  exact ⟨t, ht, hr.trans hs⟩

/-- What stands in brackets ends with the closing one. -/
theorem EndsWith.closer {opener closer : Token} {k : TokenKind} {ts rest : List Token}
    (hs : closer :: rest <:+ ts) (hc : closer.kind = k) : EndsWith k (opener :: ts) rest :=
  ⟨closer, hc, hs.trans (List.suffix_cons opener ts)⟩

theorem EndsInOperand.of_suffix {ts us rest : List Token} (h : EndsInOperand us rest)
    (hs : us <:+ ts) : EndsInOperand ts rest := by
  obtain ⟨vs, e, hv, he⟩ := h
  exact ⟨vs, e, hv.trans hs, he⟩

theorem Spells.endsWith_of_operand {ts rest : List Token} {e : Expr}
    (h : Spells ts (.expr .operand e) rest) : ∃ k, k ≠ .rightBrace ∧ EndsWith k ts rest := by
  cases h with
  | primary h =>
    cases h with
    | name h => exact ⟨_, by rw [h]; decide, _, rfl, List.suffix_refl _⟩
    | number h _ => exact ⟨_, by rw [h]; decide, _, rfl, List.suffix_refl _⟩
    | string h => exact ⟨_, by rw [h]; decide, _, rfl, List.suffix_refl _⟩
    | group _ he hc =>
      exact ⟨.rightParen, by decide, .closer he.suffix hc⟩
  | dot he _ hn =>
    exact ⟨.identifier, by decide, _, hn, (List.suffix_cons _ _).trans he.suffix⟩
  | index he _ hk hc =>
    have hsuffix := (hk.suffix.trans (List.suffix_cons _ _)).trans he.suffix
    exact ⟨.rightBracket, by decide, _, hc, hsuffix⟩
  | call hf _ ha hc =>
    have hsuffix := (ha.suffix.trans (List.suffix_cons _ _)).trans hf.suffix
    exact ⟨.rightParen, by decide, _, hc, hsuffix⟩

/-- What ends with `}` does not end in an operand. -/
theorem EndsWith.not_endsInOperand {ts rest : List Token} (h : EndsWith .rightBrace ts rest) :
    ¬ EndsInOperand ts rest := by
  rintro ⟨vs, e, hv, he⟩
  obtain ⟨k, hk, hends⟩ := he.endsWith_of_operand
  exact hk ((hends.of_suffix hv).unique h)

theorem Spells.endsInOperand {ts rest : List Token} {e : Expr}
    (h : Spells ts (.expr .sum e) rest) : EndsInOperand ts rest := by
  have hoperand {us : List Token} {r : Expr} (h : Spells us (.expr .operand r) rest) :
      EndsInOperand us rest := ⟨us, r, List.suffix_refl us, h⟩
  have hproduct {us : List Token} {r : Expr} (h : Spells us (.expr .product r) rest) :
      EndsInOperand us rest := by
    cases h with
    | operand h => exact hoperand h
    | times hl _ _ _ hr =>
      exact (hoperand hr).of_suffix ((List.suffix_cons _ _).trans hl.suffix)
  cases h with
  | product h => exact hproduct h
  | plus hl _ _ _ hr => exact (hproduct hr).of_suffix ((List.suffix_cons _ _).trans hl.suffix)

theorem Spells.endsInOperand_or {ts rest : List Token} {e : Expr}
    (h : Spells ts (.expr .expression e) rest) :
    EndsInOperand ts rest ∨ EndsWith .rightBrace ts rest := by
  generalize hphrase : Phrase.expr .expression e = phrase at h
  induction h generalizing e with
  | objectLevel h =>
    cases h with
    | sum h => exact .inl h.endsInOperand
    | object _ hp hc => exact .inr (.closer hp.suffix hc)
  | assign hl _ hr _ ih =>
    have hsuffix := (List.suffix_cons _ _).trans hl.suffix
    exact (ih rfl).imp (·.of_suffix hsuffix) (·.of_suffix hsuffix)
  | _ => cases hphrase

/-! ## Statements -/

section Statements

variable {greedy : Bool} {ts rest : List Token}

open Detached

theorem Parameters.detached {params : List String} (h : Parameters ts params rest) :
    Detached (fun a b => Parameters a params b) ts rest := by
  induction h with
  | none => exact nil fun _ => .none
  | last h => exact (token h (by decide)).mono fun _ _ he => he ▸ .last h
  | cons h hc _ ih =>
    refine ((token h (by decide)).trans ((token hc (by decide)).trans ih)).mono ?_
    rintro _ _ ⟨_, rfl, _, rfl, hps⟩
    exact .cons h hc hps

/-- An expression of a statement, with the promise that no call is torn. -/
theorem Spells.detached_whole {e : Expr} (h : Spells ts (.expr .expression e) rest)
    (hg : greedy = true → ¬ TearsCall ts rest) :
    Detached (fun a b => Spells a (.expr .expression e) b ∧ (greedy = true → ¬ TearsCall a b) ∧
      next a = next ts) ts rest := by
  have hlt := h.length_lt
  obtain ⟨us, rfl, hne, hs⟩ := h.detached
  refine ⟨us, rfl, hne, fun rest' hf => ⟨hs rest' hf, ?_, ?_⟩⟩
  · rintro hgreedy ⟨hends, hparen⟩
    exact hg hgreedy ⟨hends.of_append fun _ => hparen, hf hparen⟩
  · cases us with
    | nil => simp at hlt
    | cons u us => rfl

theorem declarationKind_ne_eof (constant : Bool) : declarationKind constant ≠ .eof := by
  cases constant <;> decide

mutual

theorem Statement.detached {ts rest : List Token} {s : Stmt} (h : Statement greedy ts s rest) :
    Detached (fun a b => Statement greedy a s b) ts rest := by
  match h with
  | .declare hk hn =>
    refine ((token hk (declarationKind_ne_eof _)).trans (token hn (by decide))).mono ?_
    rintro _ _ ⟨_, rfl, rfl⟩
    exact .declare hk hn
  | .declareAs hk hn ht he hg =>
    refine ((token hk (declarationKind_ne_eof _)).trans ((token hn (by decide)).trans
      ((token ht (by decide)).trans (he.detached_whole hg)))).mono ?_
    rintro _ _ ⟨_, rfl, _, rfl, _, rfl, he', hg', -⟩
    exact .declareAs hk hn ht he' hg'
  | .function hk hn ho hp hc ho' hb hc' =>
    have hbody := (token ho' (by decide)).trans (hb.detached.trans (token hc' (by decide)))
    refine ((token hk (by decide)).trans ((token hn (by decide)).trans
      ((token ho (by decide)).trans (hp.detached.trans
        ((token hc (by decide)).trans hbody))))).mono ?_
    rintro _ _ ⟨_, rfl, _, rfl, _, rfl, _, hp', _, rfl, _, rfl, _, hb', rfl⟩
    exact .function hk hn ho hp' hc ho' hb' hc'
  | .expr he hg =>
    refine (he.detached_whole hg).mono ?_
    rintro a b ⟨he', hg', hnext⟩
    rw [← hnext]
    exact .expr he' hg'

theorem Statements.detached {ts rest : List Token} {ss : List Stmt}
    (h : Statements greedy ts ss rest) : Detached (fun a b => Statements greedy a ss b) ts rest := by
  match h with
  | .nil => exact Detached.nil fun _ => .nil
  | .semicolon ht h =>
    refine ((token ht (by decide)).trans h.detached).mono ?_
    rintro _ _ ⟨_, rfl, h'⟩
    exact .semicolon ht h'
  | .cons hs hss =>
    refine (hs.detached.trans hss.detached).mono ?_
    rintro _ _ ⟨_, hs', hss'⟩
    exact .cons hs' hss'

end

def startsStatement (kind : TokenKind) : Bool :=
  startsExpression kind || kind == .letKeyword || kind == .constKeyword || kind == .fnKeyword

theorem Statement.startsWith {s : Stmt} (h : Statement greedy ts s rest) :
    startsStatement (next ts).kind := by
  cases h with
  | @declare _ _ _ constant hk _ | @declareAs _ _ _ _ _ constant _ hk _ _ _ =>
    rw [Parser.next_cons, hk]
    cases constant <;> rfl
  | function hk _ _ _ _ _ _ _ =>
    rw [Parser.next_cons, hk]
    rfl
  | expr he _ =>
    have hstart := he.startsWith.1
    unfold startsStatement
    rw [hstart]
    rfl

theorem Statement.length_lt {s : Stmt} (h : Statement greedy ts s rest) :
    rest.length < ts.length := by
  refine h.detached.length_lt fun us hus heof => ?_
  exact ne_of_starts hus.startsWith rfl heof

/-- Statements start with a statement, with a `;`, or with what follows them. -/
theorem Statements.startsWith {ss : List Stmt} (h : Statements greedy ts ss rest) :
    startsStatement (next ts).kind ∨ (next ts).kind = .semicolon ∨ ts = rest := by
  cases h with
  | nil => exact .inr (.inr rfl)
  | semicolon ht _ => exact .inr (.inl ht)
  | cons hs _ => exact .inl hs.startsWith

end Statements

end ScopeScript.Grammar
