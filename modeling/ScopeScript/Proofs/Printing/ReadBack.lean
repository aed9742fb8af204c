import ScopeScript.Proofs.Printing.Printed
import ScopeScript.Script

/-!
# Printed programs read back

The printed tokens of an expression are spelled at the level of their position, whatever follows
them, and those of a statement are greedy, since `;` comes next.  So a program that is printed and
read again is the same program, its lines apart (`reads_back`).
-/

namespace ScopeScript

open Grammar
open ScopeScript.Parser (next)
open Token (symbol word separated enclosed)

variable {spell : Spelling}

/-! ## The tokens can stand in a text -/

/-- Tokens without lines that a text can have. -/
def AllPlain (ts : List Token) : Prop := ∀ t ∈ ts, t.Legal ∧ t.line = 0

namespace AllPlain

variable {ts us : List Token}

theorem nil : AllPlain [] := nofun

theorem cons {t : Token} (ht : t.Legal ∧ t.line = 0) (hts : AllPlain ts) : AllPlain (t :: ts) := by
  intro u hu
  rcases List.mem_cons.1 hu with rfl | hu
  · exact ht
  · exact hts u hu

theorem append (hts : AllPlain ts) (hus : AllPlain us) : AllPlain (ts ++ us) := by
  intro t ht
  rcases List.mem_append.1 ht with ht | ht
  · exact hts t ht
  · exact hus t ht

/-- Tokens with a symbol between or behind them. -/
theorem symbol (c : Char) (hc : (symbol c).Legal) (hts : AllPlain ts) :
    AllPlain (Token.symbol c :: ts) :=
  .cons ⟨hc, rfl⟩ hts

theorem word {text : String} (hw : (word text).Legal) (hts : AllPlain ts) :
    AllPlain (Token.word text :: ts) :=
  .cons ⟨hw, rfl⟩ hts

theorem enclosed (position level : Level) (hts : AllPlain ts) :
    AllPlain (enclosed position level ts) := by
  unfold Token.enclosed
  split
  · exact .append (.symbol '(' ⟨_, rfl, rfl⟩ hts) (.symbol ')' ⟨_, rfl, rfl⟩ .nil)
  · exact hts

theorem separated {tss : List (List Token)} (h : ∀ ts ∈ tss, AllPlain ts) :
    AllPlain (separated tss) := by
  induction tss with
  | nil => exact .nil
  | cons ts tss ih =>
    have hts := h ts List.mem_cons_self
    have hrest := ih fun us hus => h us (List.mem_cons_of_mem ts hus)
    cases tss with
    | nil => exact hts
    | cons us tss => exact .append hts (.symbol ',' ⟨_, rfl, rfl⟩ hrest)

end AllPlain

theorem IsName.wordKind {text : String} (h : IsName text) :
    Token.wordKind text.toList = .identifier := by
  obtain ⟨-, hlet, hconst, hfn⟩ := h
  have hne {word : String} {cs : List Char} (hw : text ≠ word) (hcs : word.toList = cs) :
      text.toList ≠ cs :=
    fun he => hw (String.toList_inj.1 (he.trans hcs.symm))
  have hlet' : text.toList ≠ ['l', 'e', 't'] := hne hlet rfl
  have hconst' : text.toList ≠ ['c', 'o', 'n', 's', 't'] := hne hconst rfl
  have hfn' : text.toList ≠ ['f', 'n'] := hne hfn rfl
  unfold Token.wordKind
  rw [if_neg hlet', if_neg hconst', if_neg hfn']

theorem IsName.legal {text : String} (h : IsName text) : (word text).Legal := by
  have hkind : (word text).kind = .identifier := h.wordKind
  unfold Token.Legal
  rw [hkind]
  exact ⟨h.1, h.wordKind⟩

theorem legal_let : (word "let").Legal := ⟨.of_all (by decide) rfl, rfl⟩

theorem legal_const : (word "const").Legal := ⟨.of_all (by decide) rfl, rfl⟩

theorem legal_fn : (word "fn").Legal := ⟨.of_all (by decide) rfl, rfl⟩

theorem legal_operator (op : BinaryOp) : (⟨.operator, op.symbol, 0⟩ : Token).Legal := by
  cases op <;> exact ⟨_, rfl, rfl⟩

mutual

theorem Expr.plain_tokens {e : Expr} (h : e.Printable spell) (position : Level) :
    AllPlain (e.tokens spell position) := by
  match e with
  | .number value line => exact .cons ⟨h.1, rfl⟩ .nil
  | .string value line => exact .cons ⟨h, rfl⟩ .nil
  | .name name line => exact .word (IsName.legal h) .nil
  | .binary left op right line =>
    have hright := Expr.plain_tokens h.2 (rightLevel op)
    exact .enclosed _ _
      ((Expr.plain_tokens h.1 (levelOf op)).append (.cons ⟨legal_operator op, rfl⟩ hright))
  | .assign target value line =>
    have hvalue := Expr.plain_tokens h.2 .expression
    exact .enclosed _ _
      ((Expr.plain_tokens h.1 .objectLevel).append (.symbol '=' ⟨_, rfl, rfl⟩ hvalue))
  | .call callee arguments line =>
    have harguments := AllPlain.separated (Expr.plain_eachTokens h.2)
    exact .enclosed _ _
      (((Expr.plain_tokens h.1 .operand).append (.symbol '(' ⟨_, rfl, rfl⟩ harguments)).append
        (.symbol ')' ⟨_, rfl, rfl⟩ .nil))
  | .dot object (.name name _) line =>
    exact .enclosed _ _
      ((Expr.plain_tokens h.1 .operand).append
        (.symbol '.' ⟨_, rfl, rfl⟩ (.word (IsName.legal h.2) .nil)))
  | .index object key line =>
    have hkey := Expr.plain_tokens h.2 .expression
    exact .enclosed _ _
      (((Expr.plain_tokens h.1 .operand).append (.symbol '[' ⟨_, rfl, rfl⟩ hkey)).append
        (.symbol ']' ⟨_, rfl, rfl⟩ .nil))
  | .object properties line =>
    have hproperties := AllPlain.separated (Property.plain_eachTokens h)
    exact .enclosed _ _
      (.append (.symbol '\x7b' ⟨_, rfl, rfl⟩ hproperties) (.symbol '\x7d' ⟨_, rfl, rfl⟩ .nil))

theorem Expr.plain_eachTokens {es : List Expr} (h : Expr.AllPrintable spell es) :
    ∀ ts ∈ Expr.eachTokens spell es, AllPlain ts := by
  match es with
  | [] => exact nofun
  | e :: es =>
    intro ts hts
    rcases List.mem_cons.1 hts with rfl | hts
    · exact Expr.plain_tokens h.1 .expression
    · exact Expr.plain_eachTokens h.2 ts hts

theorem Property.plain_tokens {p : Property} (h : p.Printable spell) :
    AllPlain (p.tokens spell) := by
  match p with
  | .shorthand key line => exact .word (IsName.legal h) .nil
  | .field key value line =>
    exact .word h.1.legal (.symbol ':' ⟨_, rfl, rfl⟩ (Expr.plain_tokens h.2 .expression))

theorem Property.plain_eachTokens {ps : List Property} (h : Property.AllPrintable spell ps) :
    ∀ ts ∈ Property.eachTokens spell ps, AllPlain ts := by
  match ps with
  | [] => exact nofun
  | p :: ps =>
    intro ts hts
    rcases List.mem_cons.1 hts with rfl | hts
    · exact Property.plain_tokens h.1
    · exact Property.plain_eachTokens h.2 ts hts

end

theorem plain_params {params : List String} (h : ∀ p ∈ params, IsName p) :
    AllPlain (separated (params.map fun p => [word p])) := by
  refine .separated fun ts hts => ?_
  obtain ⟨p, hp, rfl⟩ := List.mem_map.1 hts
  exact .word (h p hp).legal .nil

mutual

theorem Stmt.plain_tokens {s : Stmt} (h : s.Printable spell) : AllPlain (s.tokens spell) := by
  have hkeyword (constant : Bool) : (word (if constant then "const" else "let")).Legal := by
    cases constant
    · exact legal_let
    · exact legal_const
  match s with
  | .declare name constant none line => exact .word (hkeyword constant) (.word (IsName.legal h) .nil)
  | .declare name constant (some e) line =>
    exact .word (hkeyword constant)
      (.word h.1.legal (.symbol '=' ⟨_, rfl, rfl⟩ (Expr.plain_tokens h.2 .expression)))
  | .function name params body line =>
    obtain ⟨hname, hparams, hbody⟩ := h
    have hhead := AllPlain.word legal_fn
      (.word hname.legal (.symbol '(' ⟨_, rfl, rfl⟩ (plain_params hparams)))
    have hblock := AllPlain.symbol '\x7b' ⟨_, rfl, rfl⟩ (Stmt.plain_allTokens hbody)
    exact (hhead.append (.symbol ')' ⟨_, rfl, rfl⟩ hblock)).append (.symbol '\x7d' ⟨_, rfl, rfl⟩ .nil)
  | .expr e line => exact Expr.plain_tokens h .expression

theorem Stmt.plain_allTokens {ss : List Stmt} (h : Stmt.AllPrintable spell ss) :
    AllPlain (Stmt.allTokens spell ss) := by
  match ss with
  | [] => exact .nil
  | s :: ss =>
    exact (Stmt.plain_tokens h.1).append (.symbol ';' ⟨_, rfl, rfl⟩ (Stmt.plain_allTokens h.2))

end

/-! ## The tokens spell the program -/

/-- Parentheses bring any expression to the level of its position. -/
theorem Grammar.Spells.enclosed {position level : Level} {ts : List Token} {e : Expr}
    (h : ∀ rest, Spells (ts ++ rest) (.expr level e) rest) (rest : List Token) :
    Spells (enclosed position level ts ++ rest) (.expr position e) rest := by
  unfold Token.enclosed
  split
  · have hinner := (h (symbol ')' :: rest)).widen level.rank_le_expression
    have hopener : (symbol '(').kind = .leftParen := rfl
    have hgroup := Spells.group hopener hinner rfl
    rw [List.append_assoc, List.cons_append, List.singleton_append]
    exact hgroup.widen (Nat.zero_le _)
  · next hle => exact (h rest).widen (Nat.not_lt.1 hle)

theorem Grammar.Spells.binary {op : BinaryOp} {t : Token} {ts mid rest : List Token} {l r : Expr}
    (hl : Spells ts (.expr (levelOf op) l) (t :: mid)) (hk : t.kind = .operator)
    (ht : t.text = op.symbol) (hr : Spells mid (.expr (rightLevel op) r) rest) :
    Spells ts (.expr (levelOf op) (.binary l op r t.line)) rest := by
  cases op
  · exact .plus hl hk ht rfl hr
  · exact .plus hl hk ht rfl hr
  · exact .times hl hk ht rfl hr
  · exact .times hl hk ht rfl hr
  · exact .times hl hk ht rfl hr

/-- Left operands of printed expressions, in front of a symbol. -/
theorem append_cons_append (ts us rest : List Token) (t : Token) :
    ts ++ t :: us ++ rest = ts ++ t :: (us ++ rest) := by
  rw [List.append_assoc, List.cons_append]

mutual

theorem Expr.spells_tokens {e : Expr} (h : e.Printable spell) (position : Level)
    (rest : List Token) :
    Spells (e.tokens spell position ++ rest) (.expr position e.unlined) rest := by
  match e with
  | .number value line =>
    exact (Spells.number (t := ⟨.number, spell value line, 0⟩) rfl h.2).widen (Nat.zero_le _)
  | .string value line =>
    exact (Spells.string (t := ⟨.string, value, 0⟩) rfl).widen (Nat.zero_le _)
  | .name name line =>
    exact (Spells.name (t := word name) (IsName.wordKind h)).widen (Nat.zero_le _)
  | .binary left op right line =>
    refine Spells.enclosed (fun rest => ?_) rest
    have hleft := Expr.spells_tokens h.1 (levelOf op)
      (⟨.operator, op.symbol, 0⟩ :: (right.tokens spell (rightLevel op) ++ rest))
    have hright := Expr.spells_tokens h.2 (rightLevel op) rest
    rw [append_cons_append]
    exact .binary hleft rfl rfl hright
  | .assign target value line =>
    refine Spells.enclosed (fun rest => ?_) rest
    have htarget := Expr.spells_tokens h.1 .objectLevel
      (symbol '=' :: (value.tokens spell .expression ++ rest))
    have hvalue := Expr.spells_tokens h.2 .expression rest
    rw [append_cons_append]
    exact .assign htarget rfl hvalue
  | .call callee arguments line =>
    refine Spells.enclosed (fun rest => ?_) rest
    have hcallee := Expr.spells_tokens h.1 .operand
      (symbol '(' :: (separated (Expr.eachTokens spell arguments) ++ symbol ')' :: rest))
    have harguments := Expr.spells_eachTokens h.2 (symbol ')' :: rest)
    rw [List.append_assoc, append_cons_append, List.singleton_append]
    exact .call hcallee rfl harguments rfl
  | .dot object (.name name _) line =>
    refine Spells.enclosed (fun rest => ?_) rest
    have hobject := Expr.spells_tokens h.1 .operand (symbol '.' :: word name :: rest)
    rw [append_cons_append]
    exact .dot hobject rfl (IsName.wordKind h.2)
  | .index object key line =>
    refine Spells.enclosed (fun rest => ?_) rest
    have hobject := Expr.spells_tokens h.1 .operand
      (symbol '[' :: (key.tokens spell .expression ++ symbol ']' :: rest))
    have hkey := Expr.spells_tokens h.2 .expression (symbol ']' :: rest)
    rw [List.append_assoc, append_cons_append, List.singleton_append]
    exact .index hobject rfl hkey rfl
  | .object properties line =>
    refine Spells.enclosed (fun rest => ?_) rest
    have hproperties := Property.spells_eachTokens h (symbol '\x7d' :: rest)
    rw [List.append_assoc, List.cons_append, List.singleton_append]
    have hopener : (symbol '\x7b').kind = .leftBrace := rfl
    exact .object hopener hproperties rfl

theorem Expr.spells_eachTokens {es : List Expr} (h : Expr.AllPrintable spell es)
    (rest : List Token) :
    Spells (separated (Expr.eachTokens spell es) ++ rest) (.arguments (Expr.allUnlined es))
      rest := by
  match es with
  | [] => exact .noArguments
  | [e] => exact .lastArgument (Expr.spells_tokens h.1 .expression rest)
  | e :: e' :: es =>
    have htail := Expr.spells_eachTokens h.2 rest
    have hhead := Expr.spells_tokens h.1 .expression
      (symbol ',' :: (separated (Expr.eachTokens spell (e' :: es)) ++ rest))
    show Spells (e.tokens spell .expression ++ symbol ',' ::
      separated (Expr.eachTokens spell (e' :: es)) ++ rest) _ rest
    rw [append_cons_append]
    exact .argument hhead rfl htail

theorem Property.spells_tokens {p : Property} (h : p.Printable spell) (rest : List Token) :
    Spells (p.tokens spell ++ rest) (.property p.unlined) rest := by
  match p with
  | .shorthand key line => exact .shorthand (t := word key) (IsName.wordKind h)
  | .field key value line =>
    have hkey : (word key).kind = .identifier := h.1.wordKind
    exact .field hkey rfl (Expr.spells_tokens h.2 .expression rest)

theorem Property.spells_eachTokens {ps : List Property} (h : Property.AllPrintable spell ps)
    (rest : List Token) :
    Spells (separated (Property.eachTokens spell ps) ++ rest)
      (.properties (Property.allUnlined ps)) rest := by
  match ps with
  | [] => exact .noProperties
  | [p] => exact .lastProperty (Property.spells_tokens h.1 rest)
  | p :: p' :: ps =>
    have htail := Property.spells_eachTokens h.2 rest
    have hhead := Property.spells_tokens h.1
      (symbol ',' :: (separated (Property.eachTokens spell (p' :: ps)) ++ rest))
    show Spells (p.tokens spell ++ symbol ',' ::
      separated (Property.eachTokens spell (p' :: ps)) ++ rest) _ rest
    rw [append_cons_append]
    exact .propertyThen hhead rfl htail

end

theorem parameters_params {params : List String} (h : ∀ p ∈ params, IsName p)
    (rest : List Token) :
    Parameters (separated (params.map fun p => [word p]) ++ rest) params rest := by
  induction params with
  | nil => exact .none
  | cons p ps ih =>
    have hp : (word p).kind = .identifier := (h p List.mem_cons_self).wordKind
    have hps := ih fun q hq => h q (List.mem_cons_of_mem p hq)
    cases ps with
    | nil => exact .last hp
    | cons q ps => exact .cons hp rfl hps

/-- What a semicolon follows is not torn off a call. -/
theorem not_tearsCall_semicolon (ts rest : List Token) : ¬ TearsCall ts (symbol ';' :: rest) := by
  rintro ⟨-, hparen⟩
  rw [Parser.next_cons] at hparen
  cases hparen

theorem next_line {ts : List Token} (h : AllPlain ts) (c : Char) (rest : List Token) :
    (next (ts ++ symbol c :: rest)).line = 0 := by
  cases ts with
  | nil => rfl
  | cons t ts => exact (h t List.mem_cons_self).2

mutual

theorem Stmt.statement_tokens {s : Stmt} (h : s.Printable spell) (rest : List Token) :
    Statement true (s.tokens spell ++ symbol ';' :: rest) s.unlined (symbol ';' :: rest) := by
  have hkeyword (constant : Bool) :
      (word (if constant then "const" else "let")).kind = declarationKind constant := by
    cases constant <;> rfl
  match s with
  | .declare name constant none line =>
    have hname : (word name).kind = .identifier := IsName.wordKind h
    exact Statement.declare (hkeyword constant) hname
  | .declare name constant (some e) line =>
    have hname : (word name).kind = .identifier := h.1.wordKind
    have he := Expr.spells_tokens h.2 .expression (symbol ';' :: rest)
    rw [Stmt.unlined_declareAs]
    exact Statement.declareAs (hkeyword constant) hname rfl he
      fun _ => not_tearsCall_semicolon _ _
  | .function name params body line =>
    obtain ⟨hname, hparams, hbody⟩ := h
    have hblock := Stmt.statements_allTokens hbody (symbol '\x7d' :: symbol ';' :: rest)
    have hp := parameters_params hparams (symbol ')' :: symbol '\x7b' ::
      (Stmt.allTokens spell body ++ symbol '\x7d' :: symbol ';' :: rest))
    have hname' : (word name).kind = .identifier := hname.wordKind
    show Statement true (word "fn" :: word name :: symbol '(' ::
      separated (params.map fun p => [word p]) ++ symbol ')' :: symbol '\x7b' ::
        Stmt.allTokens spell body ++ [symbol '\x7d'] ++ symbol ';' :: rest) _ _
    simp only [List.append_assoc, List.cons_append, List.nil_append]
    exact Statement.function rfl hname' rfl hp rfl rfl hblock rfl
  | .expr e line =>
    have he := Expr.spells_tokens (e := e) h .expression (symbol ';' :: rest)
    have hstatement := Statement.expr he fun _ : true = true => not_tearsCall_semicolon _ _
    rw [next_line (Expr.plain_tokens h .expression)] at hstatement
    exact hstatement

theorem Stmt.statements_allTokens {ss : List Stmt} (h : Stmt.AllPrintable spell ss)
    (rest : List Token) :
    Statements true (Stmt.allTokens spell ss ++ rest) (Stmt.allUnlined ss) rest := by
  match ss with
  | [] => exact .nil
  | s :: ss =>
    have hs := Stmt.statement_tokens h.1 (Stmt.allTokens spell ss ++ rest)
    have hss := Stmt.statements_allTokens h.2 rest
    show Statements true (s.tokens spell ++ symbol ';' :: Stmt.allTokens spell ss ++ rest) _ rest
    rw [append_cons_append]
    exact .cons hs (.semicolon rfl hss)

end

/-! ## Reading back -/

/-- A program that is printed and read again is the same program up to its lines. -/
theorem Program.reads_back {program : Program} (h : program.Printable spell) :
    ∃ program', Program.ofText (program.printed spell) = .ok program' ∧
      program'.unlined = program.unlined := by
  have hplain := Stmt.plain_allTokens h
  obtain ⟨us, last, htokens, hus⟩ := Token.tokensOf_spaced fun t ht => (hplain t ht).1
  have hlines : (Stmt.allTokens spell program).map Token.unlined = Stmt.allTokens spell program := by
    refine (List.map_congr_left fun t ht => ?_).trans (List.map_id _)
    obtain ⟨kind, text, line⟩ := t
    have hline : line = 0 := (hplain _ ht).2
    rw [hline]
    rfl
  have hspelled := Stmt.statements_allTokens h []
  rw [List.append_nil] at hspelled
  obtain ⟨program', rest, hunlined, hrest, hstatements⟩ :=
    hspelled.of_unlined (hus.trans hlines)
  rw [List.map_eq_nil_iff.1 hrest] at hstatements
  have hread : Program.ofTokens (us ++ [.endAt last]) = .ok program' := by
    obtain ⟨us', hus', hne, -⟩ := hstatements.detached
    rw [List.append_nil] at hus'
    rw [ofTokens_eq_ok_iff_spelled, hus', beforeEnd_append hne rfl, ← hus']
    exact hstatements
  exact ⟨program', Program.ofText_eq_ok htokens hread, hunlined⟩

/-- The number that `1` reads as. -/
def one : Float := Numeral.toFloat false (.decimal ⟨1, 0⟩)

theorem read_one : Numeral.read? "1" = some one := by
  have hsign : Numeral.takeSign "1".toList = (false, ['1']) := by decide
  have hdecimal : Numeral.unsigned? ['1'] = some (.decimal ⟨1, 0⟩) := by decide
  unfold Numeral.read?
  rw [hsign]
  dsimp only
  rw [hdecimal]
  rfl

/-- A sum as an operand of a product, and an assignment as an argument. -/
def shiftedProduct : Program :=
  [.declare "x" false (some (.number one 1)) 1,
    .expr
      (.binary (.binary (.name "x" 2) .add (.number one 2) 2) .mul
        (.call (.dot (.name "x" 2) (.name "f" 2) 2)
          [.assign (.name "x" 2) (.string "a" 2) 2] 2) 2) 2]

def spellOne : Spelling := fun _ _ => "1"

theorem shiftedProduct_reads_back :
    shiftedProduct.printed spellOne = "let x = 1 ; ( x + 1 ) * x . f ( x = \"a\" ) ;" ∧
      ∃ program, Program.ofText (shiftedProduct.printed spellOne) = .ok program ∧
        program.unlined = shiftedProduct.unlined := by
  have hone : Token.IsDecimal "1" ∧ Numeral.read? "1" = some one :=
    ⟨⟨['1'], [], List.cons_ne_nil _ _, by simp, nofun, .inl rfl⟩, read_one⟩
  have hx : IsName "x" := ⟨.of_all (by decide) rfl, by decide, by decide, by decide⟩
  have hf : IsName "f" := ⟨.of_all (by decide) rfl, by decide, by decide, by decide⟩
  have ha : '"' ∉ "a".toList := by decide
  have hprintable : shiftedProduct.Printable spellOne :=
    ⟨⟨hx, hone⟩, ⟨⟨hx, hone⟩, ⟨hx, hf⟩, ⟨hx, ha⟩, trivial⟩, trivial⟩
  exact ⟨rfl, Program.reads_back hprintable⟩

end ScopeScript
