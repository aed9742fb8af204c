import ScopeScript.Proofs.Grammar.Lines

/-!
# Parsers do not look at lines

Tokens that differ only in their lines are read as trees that differ only in their lines, or are
refused with errors that differ only in their lines, and what is left differs only in its lines too.

    Blind φ p q     on such tokens p and q end in the same way, with results that φ makes equal

Here `φ` takes the lines out of a result.  `p` and `q` are one parser that was given two lines, or
two trees that differ in their lines.  A parser decides on the kinds and texts of tokens and on the
number of tokens left, so `Blind` follows its text (`program_blind`).
-/

namespace ScopeScript

theorem Token.kind_eq_of_unlined {t u : Token} (h : t.unlined = u.unlined) : t.kind = u.kind := by
  have hkind : t.unlined.kind = u.unlined.kind := by rw [h]
  exact hkind

theorem Token.text_eq_of_unlined {t u : Token} (h : t.unlined = u.unlined) : t.text = u.text := by
  have htext : t.unlined.text = u.unlined.text := by rw [h]
  exact htext

def ParseError.unlined : ParseError → ParseError
  | .unexpected expected found => .unexpected expected found.unlined
  | .unclosed bracket _ => .unclosed bracket 0

namespace Parser

variable {α β γ δ : Type}

/-! ## Results up to lines -/

/-- Lists of tokens of the same kinds and texts. -/
def SameTokens (ts us : List Token) : Prop := ts.map Token.unlined = us.map Token.unlined

namespace SameTokens

variable {ts us : List Token}

theorem length_eq (h : SameTokens ts us) : ts.length = us.length := by
  simpa using congrArg List.length h

theorem tail (h : SameTokens ts us) : SameTokens ts.tail us.tail := by
  simpa [SameTokens, ← List.map_tail] using congrArg List.tail h

theorem next (h : SameTokens ts us) : (next ts).unlined = (next us).unlined := by
  rw [← Grammar.next_unlined, ← Grammar.next_unlined]
  exact congrArg Parser.next h

theorem kind (h : SameTokens ts us) : (Parser.next ts).kind = (Parser.next us).kind :=
  Token.kind_eq_of_unlined h.next

theorem dropSemicolons (h : SameTokens ts us) :
    SameTokens (ts.dropWhile (·.kind == .semicolon)) (us.dropWhile (·.kind == .semicolon)) := by
  have hmap (vs : List Token) : (vs.dropWhile (·.kind == .semicolon)).map Token.unlined =
      (vs.map Token.unlined).dropWhile (·.kind == .semicolon) := by
    rw [List.dropWhile_map]
    rfl
  unfold SameTokens
  rw [hmap, hmap, h]

end SameTokens

/-- Two runs end in the same way up to lines. -/
inductive SameEnd (φ : α → γ) :
    EStateM.Result ParseError (List Token) α → EStateM.Result ParseError (List Token) α → Prop
  | ok {a b : α} {rest rest' : List Token} (h : φ a = φ b) (hrest : SameTokens rest rest') :
      SameEnd φ (.ok a rest) (.ok b rest')
  | error {e e' : ParseError} {rest rest' : List Token} (h : e.unlined = e'.unlined)
      (hrest : SameTokens rest rest') : SameEnd φ (.error e rest) (.error e' rest')

/-- On tokens that differ only in their lines, `p` and `q` end in the same way up to lines. -/
def Blind (φ : α → γ) (p q : Parser α) : Prop :=
  ∀ ts us, SameTokens ts us → SameEnd φ (p ts) (q us)

namespace Blind

variable {φ : α → γ} {ψ : β → δ} {p q : Parser α}

theorem bind {f g : α → Parser β} (h : Blind φ p q)
    (hf : ∀ a b, φ a = φ b → Blind ψ (f a) (g b)) : Blind ψ (p >>= f) (q >>= g) := by
  intro ts us hts
  have hp := h ts us hts
  rw [bind_apply, bind_apply]
  generalize p ts = r at hp ⊢
  generalize q us = r' at hp ⊢
  cases hp with
  | ok hab hrest => exact hf _ _ hab _ _ hrest
  | error he hrest => exact .error he hrest

theorem pure {a b : α} (h : φ a = φ b) : Blind φ (pure a) (pure b) :=
  fun _ _ hts => .ok h hts

theorem throw {e e' : ParseError} (h : e.unlined = e'.unlined) :
    Blind φ (throw e : Parser α) (throw e') :=
  fun _ _ hts => .error h hts

theorem peek_bind {f g : Token → Parser α}
    (h : ∀ t u, t.unlined = u.unlined → Blind φ (f t) (g u)) :
    Blind φ (peek >>= f) (peek >>= g) :=
  fun ts us hts => h _ _ hts.next ts us hts

theorem peekKind_bind {f g : TokenKind → Parser α} (h : ∀ kind, Blind φ (f kind) (g kind)) :
    Blind φ (peekKind >>= f) (peekKind >>= g) := by
  intro ts us hts
  rw [Parser.peekKind_bind, Parser.peekKind_bind, hts.kind]
  exact h _ ts us hts

theorem advance_bind {f g : Unit → Parser α} (h : Blind φ (f ()) (g ())) :
    Blind φ (advance >>= f) (advance >>= g) :=
  fun ts us hts => h ts.tail us.tail hts.tail

theorem advance : Blind id advance advance := fun _ _ hts => .ok rfl hts.tail

theorem skipSemicolons_bind {f g : Unit → Parser α} (h : Blind φ (f ()) (g ())) :
    Blind φ (skipSemicolons >>= f) (skipSemicolons >>= g) :=
  fun _ _ hts => h _ _ hts.dropSemicolons

theorem refuse (x : Expectation) : Blind φ (refuse x : Parser α) (refuse x) := by
  intro ts us hts
  rw [refuse_apply, refuse_apply]
  refine .error ?_ hts
  simp only [ParseError.unlined, hts.next]

theorem expect (kind : TokenKind) (x : Expectation) :
    Blind Token.unlined (expect kind x) (expect kind x) := by
  refine peek_bind fun t u htu => ?_
  rw [Token.kind_eq_of_unlined htu]
  split
  · exact advance_bind (pure htu)
  · exact refuse x

theorem identifier : Blind id identifier identifier :=
  (expect _ _).bind fun _ _ htu => pure (Token.text_eq_of_unlined htu)

theorem close (b : Bracket) (line line' : Nat) : Blind id (close b line) (close b line') := by
  refine peekKind_bind fun kind => ?_
  split
  · exact advance
  · split
    · exact throw rfl
    · exact refuse _

theorem within (h : Blind φ p q) (b : Bracket) (line line' : Nat) :
    Blind φ (within b line p) (within b line' q) := by
  intro ts us hts
  have hp := h ts us hts
  rw [within_apply, within_apply]
  generalize p ts = r at hp ⊢
  generalize q us = r' at hp ⊢
  cases hp with
  | ok hab hrest => exact .ok hab hrest
  | @error e e' rest rest' he hrest =>
    cases e with
    | unclosed c l =>
      cases e' with
      | unclosed c' l' => exact .error he hrest
      | unexpected x' t' => cases he
    | unexpected x t =>
      cases e' with
      | unclosed c' l' => cases he
      | unexpected x' t' =>
        dsimp only
        rw [hrest.kind]
        split
        · exact .error rfl hrest
        · exact .error he hrest

/-- The bound that a parser is given is the same for lists of the same length. -/
theorem sized {p q : Nat → Parser α} (h : ∀ n, Blind φ (p n) (q n)) :
    Blind φ (sized p) (sized q) := by
  intro ts us hts
  show SameEnd φ (p ts.length ts) (q us.length us)
  rw [hts.length_eq]
  exact h _ ts us hts

end Blind

/-! ## Lists -/

theorem items_blind {item : Parser α} {φ : α → γ} (hi : Blind φ item item) (b : Bracket)
    (line line' n : Nat) :
    Blind (List.map φ) (items item b line n) (items item b line' n) := by
  induction n with
  | zero => exact .throw rfl
  | succ n ih =>
    refine .peekKind_bind fun kind => ?_
    split
    · exact .throw rfl
    · refine hi.bind fun x y hxy => .peekKind_bind fun kind => ?_
      split
      · refine .advance_bind (ih.bind fun xs ys hs => .pure ?_)
        simp [hxy, hs]
      · split
        · refine .advance_bind (.pure ?_)
          simp [hxy]
        · split
          · exact .throw rfl
          · exact .refuse _

theorem commaList_blind {item : Parser α} {φ : α → γ} (hi : Blind φ item item) (b : Bracket)
    (line line' n : Nat) :
    Blind (List.map φ) (commaList item b line n) (commaList item b line' n) := by
  refine .peekKind_bind fun kind => ?_
  split
  · exact .advance_bind (.pure rfl)
  · exact items_blind hi b line line' n

/-! ## Expressions -/

section Levels

variable {inner : Parser Expr}

/-- A parser whose results are the same up to lines. -/
abbrev ExprBlind (p : Parser Expr) : Prop := Blind Expr.unlined p p

theorem group_blind (hi : ExprBlind inner) (b : Bracket) (line line' : Nat) :
    Blind Expr.unlined
      (within b line do
        let e ← inner
        close b line
        return e)
      (within b line' do
        let e ← inner
        close b line'
        return e) :=
  .within (hi.bind fun _ _ he => (Blind.close b line line').bind fun _ _ _ => .pure he) b line line'

theorem primary_blind (hi : ExprBlind inner) : ExprBlind (primary inner) := by
  refine .peek_bind fun t u htu => ?_
  obtain ⟨kind, text, line⟩ := t
  obtain ⟨kind', text', line'⟩ := u
  obtain ⟨rfl, rfl⟩ : kind = kind' ∧ text = text' := by simpa [Token.unlined] using htu
  dsimp only
  split
  · exact .advance_bind (.pure rfl)
  · refine .advance_bind ?_
    split
    · exact .pure rfl
    · exact .throw rfl
  · exact .advance_bind (.pure rfl)
  · exact .advance_bind (group_blind hi _ _ _)
  · exact .refuse _

theorem suffixes_blind (hi : ExprBlind inner) (n : Nat) {e e' : Expr}
    (he : e.unlined = e'.unlined) :
    Blind Expr.unlined (suffixes inner n e) (suffixes inner n e') := by
  induction n generalizing e e' with
  | zero => exact .pure he
  | succ n ih =>
    refine .peek_bind fun t u htu => ?_
    rw [Token.kind_eq_of_unlined htu]
    split
    · refine .advance_bind (.peek_bind fun _ _ _ => Blind.identifier.bind fun name name' hname => ?_)
      refine ih ?_
      simp only [id] at hname
      simp only [Expr.unlined, he, hname]
    · refine .advance_bind ((group_blind hi _ _ _).bind fun key key' hkey => ih ?_)
      simp only [Expr.unlined, he, hkey]
    · refine .advance_bind (((commaList_blind hi _ _ _ n).within _ _ _).bind fun es es' hes => ih ?_)
      simp only [Expr.unlined, Expr.allUnlined_eq_map, he, hes]
    · exact .pure he

theorem operand_blind (hi : ExprBlind inner) (n : Nat) : ExprBlind (operand n inner) :=
  (primary_blind hi).bind fun _ _ he => suffixes_blind hi n he

theorem chain_blind {level : Parser Expr} (hl : ExprBlind level) (accepts : BinaryOp → Bool)
    (n : Nat) {e e' : Expr} (he : e.unlined = e'.unlined) :
    Blind Expr.unlined (chain level accepts n e) (chain level accepts n e') := by
  induction n generalizing e e' with
  | zero => exact .pure he
  | succ n ih =>
    refine .peek_bind fun t u htu => ?_
    have hop : operatorOf? t = operatorOf? u := by
      unfold operatorOf?
      rw [Token.kind_eq_of_unlined htu, Token.text_eq_of_unlined htu]
    rw [hop]
    split
    · split
      · refine .advance_bind (hl.bind fun r r' hr => ih ?_)
        simp only [Expr.unlined, he, hr]
      · exact .pure he
    · exact .pure he

theorem product_blind (hi : ExprBlind inner) (n : Nat) : ExprBlind (product n inner) :=
  (operand_blind hi n).bind fun _ _ he => chain_blind (operand_blind hi n) _ n he

theorem sum_blind (hi : ExprBlind inner) (n : Nat) : ExprBlind (sum n inner) :=
  (product_blind hi n).bind fun _ _ he => chain_blind (product_blind hi n) _ n he

theorem properties_blind (hi : ExprBlind inner) (n : Nat) :
    Blind Property.allUnlined (properties inner n) (properties inner n) := by
  induction n with
  | zero => exact .pure rfl
  | succ n ih =>
    have hshorthand {key key' : String} {line line' : Nat} (hkey : id key = id key') :
        Blind Property.allUnlined
          (do return Property.shorthand key line :: (← properties inner n))
          (do return Property.shorthand key' line' :: (← properties inner n)) :=
      ih.bind fun ps ps' hps => .pure (by
        simp only [id] at hkey
        simp only [Property.allUnlined, Property.unlined, hkey, hps])
    have hfield {key key' : String} {e e' : Expr} {line line' : Nat} (hkey : id key = id key')
        (he : e.unlined = e'.unlined) :
        Blind Property.allUnlined
          (do return Property.field key e line :: (← properties inner n))
          (do return Property.field key' e' line' :: (← properties inner n)) :=
      ih.bind fun ps ps' hps => .pure (by
        simp only [id] at hkey
        simp only [Property.allUnlined, Property.unlined, hkey, he, hps])
    refine .peek_bind fun t u htu => ?_
    rw [Token.kind_eq_of_unlined htu]
    split
    · exact .pure rfl
    · refine Blind.identifier.bind fun key key' hkey => .peekKind_bind fun kind => ?_
      split
      · exact .advance_bind (hshorthand hkey)
      · split
        · exact hshorthand hkey
        · refine (Blind.expect _ _).bind fun _ _ _ => hi.bind fun e e' he =>
            .peekKind_bind fun kind => ?_
          split
          · exact .advance_bind (hfield hkey he)
          · split
            · exact hfield hkey he
            · exact .refuse _

theorem objectLevel_blind (hi : ExprBlind inner) (n : Nat) : ExprBlind (objectLevel n inner) := by
  refine .peek_bind fun t u htu => ?_
  rw [Token.kind_eq_of_unlined htu]
  split
  · refine .advance_bind (.within ((properties_blind hi n).bind fun ps ps' hps => ?_) _ _ _)
    refine (Blind.close _ _ _).bind fun _ _ _ => .pure ?_
    simp only [Expr.unlined, hps]
  · exact sum_blind hi n

theorem assignment_blind (hi : ExprBlind inner) (n : Nat) : ExprBlind (assignment n inner) := by
  refine (objectLevel_blind hi n).bind fun l l' hl => .peek_bind fun t u htu => ?_
  rw [Token.kind_eq_of_unlined htu]
  split
  · refine .advance_bind (hi.bind fun r r' hr => .pure ?_)
    simp only [Expr.unlined, hl, hr]
  · exact .pure hl

end Levels

theorem expressionAt_blind (n : Nat) : ExprBlind (expressionAt n) := by
  induction n with
  | zero => exact .refuse _
  | succ n ih => exact assignment_blind ih _

/-! ## Statements -/

theorem declaration_blind (n : Nat) (constant : Bool) :
    Blind Stmt.unlined (declaration n constant) (declaration n constant) := by
  refine .peek_bind fun t u _ => .advance_bind (Blind.identifier.bind fun name name' hname => ?_)
  simp only [id] at hname
  subst hname
  refine .peekKind_bind fun kind => ?_
  split
  · refine .advance_bind ((expressionAt_blind n).bind fun e e' he => .pure ?_)
    rw [Stmt.unlined_declareAs, Stmt.unlined_declareAs, he]
  · exact .pure rfl

section Statements

variable {item : Parser Stmt}

theorem statements_blind (hi : Blind Stmt.unlined item item) (ends : TokenKind → Bool) (n : Nat) :
    Blind Stmt.allUnlined (statements item ends n) (statements item ends n) := by
  induction n with
  | zero => exact .pure rfl
  | succ n ih =>
    refine .skipSemicolons_bind (.peekKind_bind fun kind => ?_)
    split
    · exact .pure rfl
    · refine hi.bind fun s s' hs => ih.bind fun ss ss' hss => .pure ?_
      simp only [Stmt.allUnlined, hs, hss]

theorem block_blind (hi : Blind Stmt.unlined item item) (n : Nat) :
    Blind Stmt.allUnlined (block n item) (block n item) := by
  refine (Blind.expect _ _).bind fun _ _ _ => .within ?_ _ _ _
  exact (statements_blind hi _ n).bind fun _ _ hss => (Blind.close _ _ _).bind fun _ _ _ =>
    .pure hss

theorem function_blind (hi : Blind Stmt.unlined item item) (n : Nat) :
    Blind Stmt.unlined (function n item) (function n item) := by
  refine .peek_bind fun t u _ => .advance_bind (Blind.identifier.bind fun name name' hname => ?_)
  refine (Blind.expect _ _).bind fun opener opener' _ => ?_
  refine ((commaList_blind Blind.identifier _ _ _ n).within _ _ _).bind fun params params' hps => ?_
  refine (block_blind hi n).bind fun body body' hbody => .pure ?_
  simp only [id] at hname
  simp only [List.map_id_fun, id] at hps
  simp only [Stmt.unlined, hname, hps, hbody]

theorem statementWith_blind (hi : Blind Stmt.unlined item item) (n : Nat) :
    Blind Stmt.unlined (statementWith n item) (statementWith n item) := by
  refine .peek_bind fun t u htu => ?_
  rw [Token.kind_eq_of_unlined htu]
  split
  · exact declaration_blind n _
  · exact declaration_blind n _
  · exact function_blind hi n
  · refine (expressionAt_blind n).bind fun e e' he => .pure ?_
    simp only [Stmt.unlined, he]

end Statements

theorem statementAt_blind (n : Nat) : Blind Stmt.unlined (statementAt n) (statementAt n) := by
  induction n with
  | zero => exact .refuse _
  | succ n ih => exact statementWith_blind ih _

theorem program_blind : Blind Stmt.allUnlined program program :=
  .sized fun n => statements_blind (statementAt_blind n) _ n

end Parser

/-- Tokens of the same kinds and texts are programs, or errors, that are the same up to lines. -/
theorem Program.ofTokens_unlined {ts us : List Token}
    (h : ts.map Token.unlined = us.map Token.unlined) :
    ((Program.ofTokens ts).map Program.unlined).mapError ParseError.unlined =
      ((Program.ofTokens us).map Program.unlined).mapError ParseError.unlined := by
  have hend := Parser.program_blind ts us h
  unfold Program.ofTokens EStateM.run
  generalize Parser.program ts = r at hend ⊢
  generalize Parser.program us = r' at hend ⊢
  cases hend with
  | ok h _ => exact congrArg Except.ok h
  | error h _ => exact congrArg Except.error h

end ScopeScript
