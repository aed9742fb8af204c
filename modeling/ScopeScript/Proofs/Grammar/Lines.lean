import ScopeScript.Proofs.Grammar.Exact

/-!
# Lines do not matter

The rules of the grammar ask for the kinds and the texts of tokens and copy their lines into the
tree.  So tokens that differ only in their lines spell trees that differ only in their lines.

    Spells.unlined       from tokens to tokens without lines
    Spells.of_unlined    and back
-/

namespace ScopeScript

/-! ## Without lines -/

def Token.unlined (t : Token) : Token := { t with line := 0 }

mutual

def Expr.unlined : Expr → Expr
  | .number value _ => .number value 0
  | .string value _ => .string value 0
  | .name name _ => .name name 0
  | .binary left op right _ => .binary left.unlined op right.unlined 0
  | .assign target value _ => .assign target.unlined value.unlined 0
  | .call callee arguments _ => .call callee.unlined (Expr.allUnlined arguments) 0
  | .dot object property _ => .dot object.unlined property.unlined 0
  | .index object key _ => .index object.unlined key.unlined 0
  | .object properties _ => .object (Property.allUnlined properties) 0

def Expr.allUnlined : List Expr → List Expr
  | [] => []
  | e :: es => e.unlined :: Expr.allUnlined es

def Property.unlined : Property → Property
  | .shorthand key _ => .shorthand key 0
  | .field key value _ => .field key value.unlined 0

def Property.allUnlined : List Property → List Property
  | [] => []
  | p :: ps => p.unlined :: Property.allUnlined ps

end

mutual

def Stmt.unlined : Stmt → Stmt
  | .declare name constant value _ => .declare name constant (value.map Expr.unlined) 0
  | .function name params body _ => .function name params (Stmt.allUnlined body) 0
  | .expr e _ => .expr e.unlined 0

def Stmt.allUnlined : List Stmt → List Stmt
  | [] => []
  | s :: ss => s.unlined :: Stmt.allUnlined ss

end

theorem Expr.allUnlined_eq_map (es : List Expr) : Expr.allUnlined es = es.map Expr.unlined := by
  induction es with
  | nil => rfl
  | cons e es ih => simp [Expr.allUnlined, ih]

theorem Property.allUnlined_eq_map (ps : List Property) :
    Property.allUnlined ps = ps.map Property.unlined := by
  induction ps with
  | nil => rfl
  | cons p ps ih => simp [Property.allUnlined, ih]

theorem Stmt.allUnlined_eq_map (ss : List Stmt) : Stmt.allUnlined ss = ss.map Stmt.unlined := by
  induction ss with
  | nil => rfl
  | cons s ss ih => simp [Stmt.allUnlined, ih]

/-- The program with all lines set to zero. -/
def Program.unlined (program : Program) : Program := Stmt.allUnlined program

theorem Stmt.unlined_declareAs (name : String) (constant : Bool) (e : Expr) (line : Nat) :
    (Stmt.declare name constant (some e) line).unlined =
      .declare name constant (some e.unlined) 0 := by
  rw [Stmt.unlined, Option.map_some]

namespace Grammar

open ScopeScript.Parser (next)

def Phrase.unlined : Phrase → Phrase
  | .expr level e => .expr level e.unlined
  | .arguments es => .arguments (Expr.allUnlined es)
  | .property p => .property p.unlined
  | .properties ps => .properties (Property.allUnlined ps)

theorem next_unlined (ts : List Token) : next (ts.map Token.unlined) = (next ts).unlined := by
  cases ts <;> rfl

/-! ## Taking lines away -/

theorem Spells.unlined {ts rest : List Token} {phrase : Phrase} (h : Spells ts phrase rest) :
    Spells (ts.map Token.unlined) phrase.unlined (rest.map Token.unlined) := by
  induction h with
  | name h => exact .name h
  | number h hx => exact .number h hx
  | string h => exact .string h
  | group ho _ hc ih => exact .group ho ih hc
  | primary _ ih => exact .primary ih
  | dot _ ht hn ih => exact .dot ih ht hn
  | index _ ho _ hc ihe ihk => exact .index ihe ho ihk hc
  | call _ ho _ hc ihf iha => exact .call ihf ho iha hc
  | operand _ ih => exact .operand ih
  | times _ hk ht hop _ ihl ihr => exact .times ihl hk ht hop ihr
  | product _ ih => exact .product ih
  | plus _ hk ht hop _ ihl ihr => exact .plus ihl hk ht hop ihr
  | object ho _ hc ih => exact .object ho ih hc
  | sum _ ih => exact .sum ih
  | objectLevel _ ih => exact .objectLevel ih
  | assign _ ht _ ihl ihr => exact .assign ihl ht ihr
  | noArguments => exact .noArguments
  | lastArgument _ ih => exact .lastArgument ih
  | argument _ hc _ ihe ihes => exact .argument ihe hc ihes
  | shorthand h => exact .shorthand h
  | field hk hc _ ih => exact .field hk hc ih
  | noProperties => exact .noProperties
  | lastProperty _ ih => exact .lastProperty ih
  | propertyThen _ hc _ ihp ihps => exact .propertyThen ihp hc ihps

theorem EndsInOperand.unlined {ts rest : List Token} (h : EndsInOperand ts rest) :
    EndsInOperand (ts.map Token.unlined) (rest.map Token.unlined) := by
  obtain ⟨vs, e, hv, he⟩ := h
  exact ⟨_, _, hv.map _, he.unlined⟩

theorem TearsCall.unlined {ts rest : List Token} (h : TearsCall ts rest) :
    TearsCall (ts.map Token.unlined) (rest.map Token.unlined) := by
  refine ⟨h.1.unlined, ?_⟩
  rw [next_unlined]
  exact h.2

/-! ## Bringing lines in -/

/-- Tokens without lines stand for the tokens `ts`: what the former spell, the latter spell too. -/
def Relined (ts : List Token) (phrase₀ : Phrase) (rest₀ : List Token) : Prop :=
  ∃ phrase rest, phrase.unlined = phrase₀ ∧ rest.map Token.unlined = rest₀ ∧ Spells ts phrase rest

section Inversion

variable {ts rest₀ : List Token}

theorem exists_cons_of_unlined {t : Token} (h : ts.map Token.unlined = t :: rest₀) :
    ∃ t' rest, ts = t' :: rest ∧ t'.unlined = t ∧ rest.map Token.unlined = rest₀ :=
  List.map_eq_cons_iff.1 h

theorem Relined.expr {level : Level} {e : Expr} (h : Relined ts (.expr level e) rest₀) :
    ∃ e' rest, e'.unlined = e ∧ rest.map Token.unlined = rest₀ ∧
      Spells ts (.expr level e') rest := by
  obtain ⟨phrase, rest, hphrase, hrest, hs⟩ := h
  cases phrase with
  | expr level' e' =>
    cases hphrase
    exact ⟨e', rest, rfl, hrest, hs⟩
  | _ => cases hphrase

theorem Relined.arguments {es : List Expr} (h : Relined ts (.arguments es) rest₀) :
    ∃ es' rest, Expr.allUnlined es' = es ∧ rest.map Token.unlined = rest₀ ∧
      Spells ts (.arguments es') rest := by
  obtain ⟨phrase, rest, hphrase, hrest, hs⟩ := h
  cases phrase with
  | arguments es' =>
    cases hphrase
    exact ⟨es', rest, rfl, hrest, hs⟩
  | _ => cases hphrase

theorem Relined.property {p : Property} (h : Relined ts (.property p) rest₀) :
    ∃ p' rest, p'.unlined = p ∧ rest.map Token.unlined = rest₀ ∧
      Spells ts (.property p') rest := by
  obtain ⟨phrase, rest, hphrase, hrest, hs⟩ := h
  cases phrase with
  | property p' =>
    cases hphrase
    exact ⟨p', rest, rfl, hrest, hs⟩
  | _ => cases hphrase

theorem Relined.properties {ps : List Property} (h : Relined ts (.properties ps) rest₀) :
    ∃ ps' rest, Property.allUnlined ps' = ps ∧ rest.map Token.unlined = rest₀ ∧
      Spells ts (.properties ps') rest := by
  obtain ⟨phrase, rest, hphrase, hrest, hs⟩ := h
  cases phrase with
  | properties ps' =>
    cases hphrase
    exact ⟨ps', rest, rfl, hrest, hs⟩
  | _ => cases hphrase

end Inversion

theorem Spells.of_unlined {ts₀ rest₀ : List Token} {phrase₀ : Phrase}
    (h : Spells ts₀ phrase₀ rest₀) {ts : List Token} (hts : ts.map Token.unlined = ts₀) :
    Relined ts phrase₀ rest₀ := by
  induction h generalizing ts with
  | name h =>
    obtain ⟨t, rest, rfl, rfl, hrest⟩ := exists_cons_of_unlined hts
    exact ⟨.expr .primary (.name t.text t.line), rest, rfl, hrest, .name h⟩
  | @number _ _ x h hx =>
    obtain ⟨t, rest, rfl, rfl, hrest⟩ := exists_cons_of_unlined hts
    exact ⟨.expr .primary (.number x t.line), rest, rfl, hrest, .number h hx⟩
  | string h =>
    obtain ⟨t, rest, rfl, rfl, hrest⟩ := exists_cons_of_unlined hts
    exact ⟨.expr .primary (.string t.text t.line), rest, rfl, hrest, .string h⟩
  | group ho _ hc ih =>
    obtain ⟨opener, mid, rfl, rfl, hmid⟩ := exists_cons_of_unlined hts
    obtain ⟨e, rest₁, rfl, hrest₁, he⟩ := (ih hmid).expr
    obtain ⟨closer, rest, rfl, rfl, hrest⟩ := exists_cons_of_unlined hrest₁
    exact ⟨.expr .primary e, rest, rfl, hrest, .group ho he hc⟩
  | primary _ ih =>
    obtain ⟨e, rest, rfl, hrest, he⟩ := (ih hts).expr
    exact ⟨.expr .operand e, rest, rfl, hrest, .primary he⟩
  | dot _ ht hn ih =>
    obtain ⟨e, mid, rfl, hmid, he⟩ := (ih hts).expr
    obtain ⟨t, mid', rfl, rfl, hmid'⟩ := exists_cons_of_unlined hmid
    obtain ⟨name, rest, rfl, rfl, hrest⟩ := exists_cons_of_unlined hmid'
    exact ⟨.expr .operand (.dot e (.name name.text name.line) t.line), rest, rfl, hrest,
      .dot he ht hn⟩
  | index _ ho _ hc ihe ihk =>
    obtain ⟨e, mid, rfl, hmid, he⟩ := (ihe hts).expr
    obtain ⟨opener, mid', rfl, rfl, hmid'⟩ := exists_cons_of_unlined hmid
    obtain ⟨key, rest₁, rfl, hrest₁, hk⟩ := (ihk hmid').expr
    obtain ⟨closer, rest, rfl, rfl, hrest⟩ := exists_cons_of_unlined hrest₁
    exact ⟨.expr .operand (.index e key opener.line), rest, rfl, hrest, .index he ho hk hc⟩
  | call _ ho _ hc ihf iha =>
    obtain ⟨f, mid, rfl, hmid, hf⟩ := (ihf hts).expr
    obtain ⟨opener, mid', rfl, rfl, hmid'⟩ := exists_cons_of_unlined hmid
    obtain ⟨es, rest₁, rfl, hrest₁, ha⟩ := (iha hmid').arguments
    obtain ⟨closer, rest, rfl, rfl, hrest⟩ := exists_cons_of_unlined hrest₁
    exact ⟨.expr .operand (.call f es opener.line), rest, rfl, hrest, .call hf ho ha hc⟩
  | operand _ ih =>
    obtain ⟨e, rest, rfl, hrest, he⟩ := (ih hts).expr
    exact ⟨.expr .product e, rest, rfl, hrest, .operand he⟩
  | @times _ _ _ _ _ _ op _ hk ht hop _ ihl ihr =>
    obtain ⟨l, mid, rfl, hmid, hl⟩ := (ihl hts).expr
    obtain ⟨t, mid', rfl, rfl, hmid'⟩ := exists_cons_of_unlined hmid
    obtain ⟨r, rest, rfl, hrest, hr⟩ := (ihr hmid').expr
    exact ⟨.expr .product (.binary l op r t.line), rest, rfl, hrest, .times hl hk ht hop hr⟩
  | product _ ih =>
    obtain ⟨e, rest, rfl, hrest, he⟩ := (ih hts).expr
    exact ⟨.expr .sum e, rest, rfl, hrest, .product he⟩
  | @plus _ _ _ _ _ _ op _ hk ht hop _ ihl ihr =>
    obtain ⟨l, mid, rfl, hmid, hl⟩ := (ihl hts).expr
    obtain ⟨t, mid', rfl, rfl, hmid'⟩ := exists_cons_of_unlined hmid
    obtain ⟨r, rest, rfl, hrest, hr⟩ := (ihr hmid').expr
    exact ⟨.expr .sum (.binary l op r t.line), rest, rfl, hrest, .plus hl hk ht hop hr⟩
  | object ho _ hc ih =>
    obtain ⟨opener, mid, rfl, rfl, hmid⟩ := exists_cons_of_unlined hts
    obtain ⟨ps, rest₁, rfl, hrest₁, hp⟩ := (ih hmid).properties
    obtain ⟨closer, rest, rfl, rfl, hrest⟩ := exists_cons_of_unlined hrest₁
    exact ⟨.expr .objectLevel (.object ps opener.line), rest, rfl, hrest, .object ho hp hc⟩
  | sum _ ih =>
    obtain ⟨e, rest, rfl, hrest, he⟩ := (ih hts).expr
    exact ⟨.expr .objectLevel e, rest, rfl, hrest, .sum he⟩
  | objectLevel _ ih =>
    obtain ⟨e, rest, rfl, hrest, he⟩ := (ih hts).expr
    exact ⟨.expr .expression e, rest, rfl, hrest, .objectLevel he⟩
  | assign _ ht _ ihl ihr =>
    obtain ⟨l, mid, rfl, hmid, hl⟩ := (ihl hts).expr
    obtain ⟨t, mid', rfl, rfl, hmid'⟩ := exists_cons_of_unlined hmid
    obtain ⟨r, rest, rfl, hrest, hr⟩ := (ihr hmid').expr
    exact ⟨.expr .expression (.assign l r t.line), rest, rfl, hrest, .assign hl ht hr⟩
  | noArguments => exact ⟨.arguments [], ts, rfl, hts, .noArguments⟩
  | lastArgument _ ih =>
    obtain ⟨e, rest, rfl, hrest, he⟩ := (ih hts).expr
    exact ⟨.arguments [e], rest, rfl, hrest, .lastArgument he⟩
  | argument _ hc _ ihe ihes =>
    obtain ⟨e, mid, rfl, hmid, he⟩ := (ihe hts).expr
    obtain ⟨comma, mid', rfl, rfl, hmid'⟩ := exists_cons_of_unlined hmid
    obtain ⟨es, rest, hes, hrest, hs⟩ := (ihes hmid').arguments
    cases es with
    | nil => cases hes
    | cons e' es =>
      cases hes
      exact ⟨.arguments (e :: e' :: es), rest, rfl, hrest, .argument he hc hs⟩
  | shorthand h =>
    obtain ⟨t, rest, rfl, rfl, hrest⟩ := exists_cons_of_unlined hts
    exact ⟨.property (.shorthand t.text t.line), rest, rfl, hrest, .shorthand h⟩
  | field hk hc _ ih =>
    obtain ⟨key, mid, rfl, rfl, hmid⟩ := exists_cons_of_unlined hts
    obtain ⟨colon, mid', rfl, rfl, hmid'⟩ := exists_cons_of_unlined hmid
    obtain ⟨e, rest, rfl, hrest, he⟩ := (ih hmid').expr
    exact ⟨.property (.field key.text e key.line), rest, rfl, hrest, .field hk hc he⟩
  | noProperties => exact ⟨.properties [], ts, rfl, hts, .noProperties⟩
  | lastProperty _ ih =>
    obtain ⟨p, rest, rfl, hrest, hp⟩ := (ih hts).property
    exact ⟨.properties [p], rest, rfl, hrest, .lastProperty hp⟩
  | propertyThen _ hc _ ihp ihps =>
    obtain ⟨p, mid, rfl, hmid, hp⟩ := (ihp hts).property
    obtain ⟨comma, mid', rfl, rfl, hmid'⟩ := exists_cons_of_unlined hmid
    obtain ⟨ps, rest, rfl, hrest, hps⟩ := (ihps hmid').properties
    exact ⟨.properties (p :: ps), rest, rfl, hrest, .propertyThen hp hc hps⟩

theorem Parameters.of_unlined {ts₀ rest₀ : List Token} {params : List String}
    (h : Parameters ts₀ params rest₀) {ts : List Token} (hts : ts.map Token.unlined = ts₀) :
    ∃ rest, rest.map Token.unlined = rest₀ ∧ Parameters ts params rest := by
  induction h generalizing ts with
  | none => exact ⟨ts, hts, .none⟩
  | last h =>
    obtain ⟨t, rest, rfl, rfl, hrest⟩ := exists_cons_of_unlined hts
    exact ⟨rest, hrest, .last h⟩
  | cons h hc _ ih =>
    obtain ⟨t, mid, rfl, rfl, hmid⟩ := exists_cons_of_unlined hts
    obtain ⟨comma, mid', rfl, rfl, hmid'⟩ := exists_cons_of_unlined hmid
    obtain ⟨rest, hrest, hps⟩ := ih hmid'
    exact ⟨rest, hrest, .cons h hc hps⟩

/-- An expression of a statement, with the promise that no call is torn. -/
theorem Spells.whole_of_unlined {greedy : Bool} {ts rest₀ : List Token} {e : Expr}
    (h : Spells (ts.map Token.unlined) (.expr .expression e) rest₀)
    (hg : greedy = true → ¬ TearsCall (ts.map Token.unlined) rest₀) :
    ∃ e' rest, e'.unlined = e ∧ rest.map Token.unlined = rest₀ ∧
      Spells ts (.expr .expression e') rest ∧ (greedy = true → ¬ TearsCall ts rest) := by
  obtain ⟨e', rest, he', hrest, hs⟩ := (h.of_unlined rfl).expr
  refine ⟨e', rest, he', hrest, hs, fun hgreedy htears => hg hgreedy ?_⟩
  rw [← hrest]
  exact htears.unlined

mutual

theorem Statement.of_unlined {greedy : Bool} {ts₀ rest₀ : List Token} {s₀ : Stmt}
    (h : Statement greedy ts₀ s₀ rest₀) {ts : List Token} (hts : ts.map Token.unlined = ts₀) :
    ∃ s rest, s.unlined = s₀ ∧ rest.map Token.unlined = rest₀ ∧ Statement greedy ts s rest := by
  match h with
  | .declare hk hn =>
    obtain ⟨keyword, mid, rfl, rfl, hmid⟩ := exists_cons_of_unlined hts
    obtain ⟨name, rest, rfl, rfl, hrest⟩ := exists_cons_of_unlined hmid
    exact ⟨_, rest, rfl, hrest, .declare hk hn⟩
  | .declareAs hk hn ht he hg =>
    obtain ⟨keyword, mid, rfl, rfl, hmid⟩ := exists_cons_of_unlined hts
    obtain ⟨name, mid', rfl, rfl, hmid'⟩ := exists_cons_of_unlined hmid
    obtain ⟨t, ts', rfl, rfl, hts'⟩ := exists_cons_of_unlined hmid'
    subst hts'
    obtain ⟨e', rest, rfl, hrest, he', hg'⟩ := he.whole_of_unlined hg
    exact ⟨_, rest, Stmt.unlined_declareAs .., hrest, .declareAs hk hn ht he' hg'⟩
  | .function hk hn ho hp hc ho' hb hc' =>
    obtain ⟨keyword, mid, rfl, rfl, hmid⟩ := exists_cons_of_unlined hts
    obtain ⟨name, mid₁, rfl, rfl, hmid₁⟩ := exists_cons_of_unlined hmid
    obtain ⟨opener, mid₂, rfl, rfl, hmid₂⟩ := exists_cons_of_unlined hmid₁
    obtain ⟨rest₁, hrest₁, hp'⟩ := hp.of_unlined hmid₂
    obtain ⟨closer, mid₃, rfl, rfl, hmid₃⟩ := exists_cons_of_unlined hrest₁
    obtain ⟨opener', mid₄, rfl, rfl, hmid₄⟩ := exists_cons_of_unlined hmid₃
    obtain ⟨body, rest₂, rfl, hrest₂, hb'⟩ := hb.of_unlined hmid₄
    obtain ⟨closer', rest, rfl, rfl, hrest⟩ := exists_cons_of_unlined hrest₂
    exact ⟨_, rest, rfl, hrest, .function hk hn ho hp' hc ho' hb' hc'⟩
  | .expr he hg =>
    subst hts
    obtain ⟨e', rest, rfl, hrest, he', hg'⟩ := he.whole_of_unlined hg
    refine ⟨_, rest, ?_, hrest, .expr he' hg'⟩
    rw [next_unlined]
    rfl

/-- Statements without lines are those of the tokens that have lines. -/
theorem Statements.of_unlined {greedy : Bool} {ts₀ rest₀ : List Token} {ss₀ : List Stmt}
    (h : Statements greedy ts₀ ss₀ rest₀) {ts : List Token} (hts : ts.map Token.unlined = ts₀) :
    ∃ ss rest, Stmt.allUnlined ss = ss₀ ∧ rest.map Token.unlined = rest₀ ∧
      Statements greedy ts ss rest := by
  match h with
  | .nil => exact ⟨[], ts, rfl, hts, .nil⟩
  | .semicolon ht h =>
    obtain ⟨t, mid, rfl, rfl, hmid⟩ := exists_cons_of_unlined hts
    obtain ⟨ss, rest, rfl, hrest, hss⟩ := h.of_unlined hmid
    exact ⟨ss, rest, rfl, hrest, .semicolon ht hss⟩
  | .cons hs hss =>
    obtain ⟨s, mid, rfl, hmid, hs'⟩ := hs.of_unlined hts
    obtain ⟨ss, rest, rfl, hrest, hss'⟩ := hss.of_unlined hmid
    exact ⟨s :: ss, rest, rfl, hrest, .cons hs' hss'⟩

end

end Grammar

end ScopeScript
