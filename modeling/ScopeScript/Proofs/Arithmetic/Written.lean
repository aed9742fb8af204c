import ScopeScript.Proofs.Printing.ReadBack
import ScopeScript.Proofs.Token.Numbers

/-!
# Written arithmetic

Arithmetic on number literals is a tree.  It is written with gaps between its tokens, and in
parentheses wherever it is the operand of an operator that would take it apart:

    written ::= literal | `(` gap written gap `)` | written gap operator gap written

A written tree is read token by token (`Written.readAs`), and the tokens spell the expression of the
tree, whose operators carry the lines they stand on (`Written.spells`).
-/

namespace ScopeScript

/-! ## Operators -/

/-- Arithmetic on doubles with nothing refused. -/
def BinaryOp.onDoubles : BinaryOp → Float → Float → Float
  | add, x, y => x + y
  | sub, x, y => x - y
  | mul, x, y => x * y
  | div, x, y => x / y
  | rem, x, y => Binary64.remainder x y

/-- How tightly an operator binds its operands. -/
def BinaryOp.precedence : BinaryOp → Nat
  | add | sub => 1
  | mul | div | rem => 2

theorem BinaryOp.precedence_lt (op : BinaryOp) : op.precedence < 3 := by
  cases op <;> decide

theorem BinaryOp.exists_symbolChar (op : BinaryOp) :
    ∃ c, op.symbol.toList = [c] ∧ Token.isNumberChar c = false := by
  cases op <;> exact ⟨_, rfl, by decide⟩

namespace Arithmetic

open Grammar
open Token (isBlank isNumberChar scan)

/-! ## Trees -/

/-- Digits, and perhaps a point and further digits. -/
structure Literal where
  whole : List Char
  /-- The digits after the point, if there is one. -/
  fraction : Option (List Char)
  whole_ne_nil : whole ≠ []
  whole_digits : ∀ c ∈ whole, c.isDigit
  fraction_digits : ∀ c ∈ fraction.getD [], c.isDigit

namespace Literal

def text (l : Literal) : String := String.ofList (l.whole ++ l.fraction.elim [] ('.' :: ·))

/-- The double nearest to the decimal that the digits spell. -/
def number (l : Literal) : Float :=
  let decimals := l.fraction.getD []
  Numeral.toFloat false
    (.decimal ⟨Numeral.digitsValue (l.whole ++ decimals), -(decimals.length : Int)⟩)

end Literal

inductive Tree where
  | literal (l : Literal)
  | binary (left : Tree) (op : BinaryOp) (right : Tree)

def Tree.number : Tree → Float
  | literal l => l.number
  | binary left op right => op.onDoubles left.number right.number

/-! ## Texts -/

/-- What may stand between two tokens: blanks, or nothing. -/
structure Gap where
  chars : List Char
  blank : ∀ c ∈ chars, isBlank c

namespace Gap

def none : Gap := ⟨[], nofun⟩

def feeds (g : Gap) : Nat := g.chars.count '\n'

end Gap

/-- A tree with its parentheses and gaps. -/
inductive Written where
  | literal (l : Literal)
  | group (before : Gap) (inner : Written) (after : Gap)
  | binary (left : Written) (before : Gap) (op : BinaryOp) (after : Gap) (right : Written)

namespace Written

def tree : Written → Tree
  | literal l => .literal l
  | group _ inner _ => inner.tree
  | binary left _ op _ right => .binary left.tree op right.tree

def chars : Written → List Char
  | literal l => l.text.toList
  | group before inner after => ['('] ++ (before.chars ++ (inner.chars ++ (after.chars ++ [')'])))
  | binary left before op after right =>
    left.chars ++ (before.chars ++ (op.symbol.toList ++ (after.chars ++ right.chars)))

def feeds (w : Written) : Nat := w.chars.count '\n'

/-- A whole text, with gaps at both ends. -/
def source (lead : Gap) (w : Written) (trail : Gap) : String :=
  String.ofList (lead.chars ++ (w.chars ++ trail.chars))

/-- How tightly a text holds together. -/
def precedence : Written → Nat
  | literal _ | group _ _ _ => 3
  | binary _ _ op _ _ => op.precedence

/-- Operands are in parentheses where the operator binds them more tightly than they hold together;
the right operand of an operator also where it binds them as tightly. -/
def Parenthesized : Written → Prop
  | literal _ => True
  | group _ inner _ => inner.Parenthesized
  | binary left _ op _ right =>
    left.Parenthesized ∧ right.Parenthesized ∧
      op.precedence ≤ left.precedence ∧ op.precedence < right.precedence

end Written

/-- Every tree can be written. -/
theorem Tree.exists_written (t : Tree) : ∃ w : Written, w.Parenthesized ∧ w.tree = t := by
  induction t with
  | literal l => exact ⟨.literal l, trivial, rfl⟩
  | binary left op right ihl ihr =>
    obtain ⟨l, hl, rfl⟩ := ihl
    obtain ⟨r, hr, rfl⟩ := ihr
    exact ⟨.binary (.group .none l .none) .none op .none (.group .none r .none),
      ⟨hl, hr, Nat.le_of_lt op.precedence_lt, op.precedence_lt⟩, rfl⟩

/-! ## Literals are numerals -/

namespace Literal

variable (l : Literal)

theorem isDecimal_text : Token.IsDecimal l.text := by
  refine ⟨l.whole, l.fraction.getD [], l.whole_ne_nil, l.whole_digits, l.fraction_digits, ?_⟩
  unfold text
  rw [String.toList_ofList]
  cases l.fraction with
  | none => exact .inl (List.append_nil _)
  | some fraction => exact .inr rfl

theorem splitDecimal_text :
    Numeral.splitDecimal l.text.toList = (l.whole, l.fraction.getD [], []) := by
  have hfraction := l.fraction_digits
  unfold text
  rw [String.toList_ofList]
  cases hf : l.fraction with
  | none =>
    rw [Option.elim_none, List.append_nil]
    exact Numeral.splitDecimal_whole l.whole_digits
  | some fraction =>
    rw [hf] at hfraction
    exact Numeral.splitDecimal_point l.whole_digits hfraction

theorem read?_text : Numeral.read? l.text = some l.number := by
  obtain ⟨c, run, hcons, hc, -, -⟩ := l.isDecimal_text.exists_cons
  have hsplit := l.splitDecimal_text
  rw [hcons] at hsplit
  unfold Numeral.read?
  simp [hcons, Numeral.takeSign_digit hc, Numeral.unsigned?_digit hc hsplit l.whole_ne_nil, number]

end Literal

/-! ## Tokens -/

namespace Written

/-- The tokens of a text whose first character stands on `line`. -/
def tokens (line : Nat) : Written → List Token
  | literal l => [⟨.number, l.text, line⟩]
  | group before inner after =>
    ⟨.leftParen, "(", line⟩ :: (inner.tokens (line + before.feeds) ++
      [⟨.rightParen, ")", line + before.feeds + inner.feeds + after.feeds⟩])
  | binary left before op after right =>
    let operatorLine := line + left.feeds + before.feeds
    left.tokens line ++
      ⟨.operator, op.symbol, operatorLine⟩ :: right.tokens (operatorLine + after.feeds)

/-- The expression that the tokens spell. -/
def expr (line : Nat) : Written → Expr
  | literal l => .number l.number line
  | group before inner _ => inner.expr (line + before.feeds)
  | binary left before op after right =>
    let operatorLine := line + left.feeds + before.feeds
    .binary (left.expr line) op (right.expr (operatorLine + after.feeds)) operatorLine

end Written

/-- In front of `rest`, the text `cs` is read as the tokens `ts`. -/
def ReadAs (line : Nat) (cs : List Char) (ts : List Token) (rest : List Char) : Prop :=
  scan line (cs ++ rest) = (scan (line + cs.count '\n') rest).map (ts ++ ·)

theorem ReadAs.append {line line' : Nat} {cs cs' rest : List Char} {ts ts' : List Token}
    (h : ReadAs line cs ts (cs' ++ rest)) (h' : ReadAs line' cs' ts' rest)
    (hline : line' = line + cs.count '\n') : ReadAs line (cs ++ cs') (ts ++ ts') rest := by
  subst hline
  unfold ReadAs at *
  rw [List.append_assoc, h, h', List.count_append, Nat.add_assoc]
  cases scan (line + (cs.count '\n' + cs'.count '\n')) rest with
  | ok us => exact congrArg Except.ok (List.append_assoc ts ts' us).symm
  | error e => rfl

/-- No number goes on with what `cs` starts with. -/
def EndsNumber (cs : List Char) : Prop := ∀ c ∈ cs.head?, isNumberChar c = false

theorem EndsNumber.nil : EndsNumber [] := by
  simp [EndsNumber]

theorem EndsNumber.cons {c : Char} (hc : isNumberChar c = false) (cs : List Char) :
    EndsNumber (c :: cs) := by
  simpa [EndsNumber] using hc

theorem EndsNumber.gap {cs : List Char} (h : EndsNumber cs) (g : Gap) :
    EndsNumber (g.chars ++ cs) := by
  have hblank := g.blank
  cases hg : g.chars with
  | nil => exact h
  | cons c g =>
    rw [hg] at hblank
    exact .cons (Token.EndsToken.of_blank (hblank c List.mem_cons_self)).1 _

section Reading

variable (line : Nat) (rest : List Char)

theorem Gap.readAs (g : Gap) : ReadAs line g.chars [] rest := by
  unfold ReadAs
  rw [Token.scan_gap g.blank]
  cases scan (line + g.chars.count '\n') rest <;> rfl

theorem readAs_symbol {c : Char} {kind : TokenKind} (hc : Token.symbolKind? c = some kind) :
    ReadAs line [c] [⟨kind, c.toString, line⟩] rest := by
  have hfeed : c ≠ '\n' := (Token.classes_of_symbol hc).1
  unfold ReadAs
  rw [List.count_singleton, if_neg (by simpa using hfeed)]
  exact Token.scan_symbol hc

theorem readAs_operator (op : BinaryOp) :
    ReadAs line op.symbol.toList [⟨.operator, op.symbol, line⟩] rest := by
  cases op <;> exact readAs_symbol line rest rfl

theorem Literal.feeds_text (l : Literal) : l.text.toList.count '\n' = 0 := by
  obtain ⟨c, run, hcons, hc, hrun, -⟩ := l.isDecimal_text.exists_cons
  have hall : ∀ d ∈ c :: run, isNumberChar d :=
    List.forall_mem_cons.2 ⟨by simp [isNumberChar, hc], hrun⟩
  rw [hcons, List.count_eq_zero]
  exact fun h => absurd (hall _ h) (by decide)

theorem Literal.readAs (l : Literal) {rest : List Char} (h : EndsNumber rest) :
    ReadAs line l.text.toList [⟨.number, l.text, line⟩] rest := by
  obtain ⟨c, run, hcons, hc, hrun, hpoints⟩ := l.isDecimal_text.exists_cons
  unfold ReadAs
  rw [l.feeds_text, hcons, Token.scan_number hc hrun hpoints h, ← hcons, String.ofList_toList]
  rfl

end Reading

/-- A text is read as its tokens, in front of anything that its last number does not go on with. -/
theorem Written.readAs (w : Written) (line : Nat) {rest : List Char} (h : EndsNumber rest) :
    ReadAs line w.chars (w.tokens line) rest := by
  induction w generalizing line rest with
  | literal l => exact l.readAs line h
  | group before inner after ih =>
    have hends : EndsNumber (after.chars ++ [')'] ++ rest) := by
      rw [List.append_assoc]
      exact .gap (.cons (by decide) rest) after
    let innerEnd := line + before.feeds + inner.feeds
    have hcloser := readAs_symbol (innerEnd + after.feeds) rest (c := ')') rfl
    have hafter := (after.readAs innerEnd _).append hcloser rfl
    have hinner := (ih (line + before.feeds) hends).append hafter rfl
    have hbefore := (before.readAs line _).append hinner rfl
    exact (readAs_symbol line _ (c := '(') rfl).append hbefore rfl
  | binary left before op after right ihl ihr =>
    let operatorLine := line + left.feeds + before.feeds
    have hends : EndsNumber
        (before.chars ++ (op.symbol.toList ++ (after.chars ++ right.chars)) ++ rest) := by
      obtain ⟨c, hsymbol, hc⟩ := op.exists_symbolChar
      rw [List.append_assoc, hsymbol]
      exact .gap (.cons hc _) before
    have hright := ihr (operatorLine + after.feeds) h
    have hafter := (after.readAs operatorLine _).append hright rfl
    have hop := (readAs_operator operatorLine _ op).append hafter (by cases op <;> rfl)
    have hbefore := (before.readAs (line + left.feeds) _).append hop rfl
    exact (ihl line hends).append hbefore rfl

/-! ## Spelling the expression -/

namespace Written

/-- The tightest level that the tokens stand at. -/
def level : Written → Level
  | literal _ | group _ _ _ => .primary
  | binary _ _ op _ _ => levelOf op

variable {w : Written} {op : BinaryOp}

theorem rank_le_left (h : op.precedence ≤ w.precedence) :
    w.level.rank ≤ (levelOf op).rank := by
  cases w with
  | literal l => exact Nat.zero_le _
  | group before inner after => exact Nat.zero_le _
  | binary left before op' after right =>
    change op.precedence ≤ op'.precedence at h
    show (levelOf op').rank ≤ (levelOf op).rank
    revert h
    cases op <;> cases op' <;> decide

theorem rank_le_right (h : op.precedence < w.precedence) :
    w.level.rank ≤ (rightLevel op).rank := by
  cases w with
  | literal l => exact Nat.zero_le _
  | group before inner after => exact Nat.zero_le _
  | binary left before op' after right =>
    change op.precedence < op'.precedence at h
    show (levelOf op').rank ≤ (rightLevel op).rank
    revert h
    cases op <;> cases op' <;> decide

theorem spells (hw : w.Parenthesized) (line : Nat) (rest : List Token) :
    Spells (w.tokens line ++ rest) (.expr w.level (w.expr line)) rest := by
  induction w generalizing line rest with
  | literal l => exact .number (t := ⟨.number, l.text, line⟩) rfl l.read?_text
  | group before inner after ih =>
    let opener : Token := ⟨.leftParen, "(", line⟩
    let closer : Token := ⟨.rightParen, ")", line + before.feeds + inner.feeds + after.feeds⟩
    have hopener : opener.kind = .leftParen := rfl
    have hinner := (ih hw (line + before.feeds) (closer :: rest)).widen (Level.rank_le_expression _)
    have hgroup := Spells.group hopener hinner rfl
    show Spells (opener :: (inner.tokens (line + before.feeds) ++ [closer] ++ rest)) _ rest
    rwa [List.append_assoc]
  | binary left before op after right ihl ihr =>
    obtain ⟨hl, hr, hleft, hright⟩ := hw
    let operatorLine := line + left.feeds + before.feeds
    let operator : Token := ⟨.operator, op.symbol, operatorLine⟩
    have hright := (ihr hr (operatorLine + after.feeds) rest).widen (rank_le_right hright)
    have hleft := (ihl hl line
      (operator :: (right.tokens (operatorLine + after.feeds) ++ rest))).widen (rank_le_left hleft)
    show Spells (left.tokens line ++ operator :: right.tokens (operatorLine + after.feeds) ++ rest)
      _ rest
    rw [append_cons_append]
    exact .binary hleft rfl rfl hright

end Written

/-! ## The program -/

section Program

variable {w : Written} (hw : w.Parenthesized) (lead trail : Gap)

theorem Written.tokensOf_source :
    Token.tokensOf (w.source lead trail) =
      .ok (w.tokens (1 + lead.feeds) ++ [.endAt (1 + lead.feeds + w.feeds + trail.feeds)]) := by
  have hends : EndsNumber (trail.chars ++ []) := .gap .nil trail
  have htrail := trail.readAs (1 + lead.feeds + w.feeds) []
  have hbody := (w.readAs (1 + lead.feeds) hends).append htrail rfl
  have hwhole : scan 1 _ = _ := (lead.readAs 1 _).append hbody rfl
  have hlines : 1 + (lead.chars ++ (w.chars ++ trail.chars)).count '\n' =
      1 + lead.feeds + w.feeds + trail.feeds := by
    simp [Gap.feeds, Written.feeds, Nat.add_assoc]
  rw [List.append_nil, hlines, Token.scan_nil] at hwhole
  simpa [Token.tokensOf, Written.source, Except.map] using hwhole

include hw

/-- The text is a program of one statement, which is the expression. -/
theorem Written.ofText_source :
    ∃ line, Program.ofText (w.source lead trail) = .ok [.expr (w.expr (1 + lead.feeds)) line] := by
  have hspelled := (w.spells hw (1 + lead.feeds) []).widen (Level.rank_le_expression _)
  have hwhole : ¬ TearsCall (w.tokens (1 + lead.feeds) ++ []) [] := fun htears => nomatch htears.2
  have hstatements := Statements.cons (Statement.expr hspelled fun _ : true = true => hwhole) .nil
  rw [List.append_nil] at hstatements
  let last := Token.endAt (1 + lead.feeds + w.feeds + trail.feeds)
  have hlast : (Parser.next [last]).kind = .eof := rfl
  have hread := hstatements.ofTokens hlast
  exact ⟨(Parser.next (w.tokens (1 + lead.feeds))).line,
    Program.ofText_eq_ok (tokensOf_source lead trail) hread⟩

end Program

end Arithmetic

end ScopeScript
