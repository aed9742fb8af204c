import ScopeScript.Proofs.Token.Spaced

/-!
# Programs as text

A program is written with a space between each two tokens and with `;` after every statement.  An
expression stands in parentheses exactly where its own level is looser than the level of its
position:

    left operand                     the level of its operator
    right operand                    one level tighter
    object of a member, callee       operand
    target of an assignment          objectLevel
    anywhere else                    expression

A number has no text of its own: a `Spelling` says how each literal is written.  It is given the
line of the literal too, so that two literals of one value can be written in two ways.
-/

namespace ScopeScript

open Grammar

/-- A word that can be a name. -/
def IsName (text : String) : Prop :=
  Token.IsWord text ∧ text ≠ "let" ∧ text ≠ "const" ∧ text ≠ "fn"

/-- The text of a number literal, by its value and its line. -/
abbrev Spelling := Float → Nat → String

namespace Token

def symbol (c : Char) : Token := ⟨(symbolKind? c).getD .eof, c.toString, 0⟩

def word (text : String) : Token := ⟨wordKind text.toList, text, 0⟩

/-- Lists of tokens with commas between them. -/
def separated : List (List Token) → List Token
  | [] => []
  | [ts] => ts
  | ts :: us :: rest => ts ++ symbol ',' :: separated (us :: rest)

/-- The tokens of an expression of the given level, as they stand at `position`. -/
def enclosed (position level : Level) (ts : List Token) : List Token :=
  if position.rank < level.rank then symbol '(' :: ts ++ [symbol ')'] else ts

end Token

open Token (symbol word separated enclosed)

/-- The level of a right operand. -/
def Grammar.rightLevel : BinaryOp → Level
  | .add | .sub => .product
  | .mul | .div | .rem => .operand

/-! ## Printing -/

section Printing

variable (spell : Spelling)

mutual

def Expr.tokens (position : Level) : Expr → List Token
  | .number value line => [⟨.number, spell value line, 0⟩]
  | .string value _ => [⟨.string, value, 0⟩]
  | .name name _ => [word name]
  | .binary left op right _ =>
    enclosed position (levelOf op)
      (left.tokens (levelOf op) ++ ⟨.operator, op.symbol, 0⟩ :: right.tokens (rightLevel op))
  | .assign target value _ =>
    enclosed position .expression
      (target.tokens .objectLevel ++ symbol '=' :: value.tokens .expression)
  | .call callee arguments _ =>
    enclosed position .operand
      (callee.tokens .operand ++ symbol '(' :: separated (Expr.eachTokens arguments) ++
        [symbol ')'])
  | .dot object property _ =>
    enclosed position .operand
      (object.tokens .operand ++ symbol '.' :: property.tokens .operand)
  | .index object key _ =>
    enclosed position .operand
      (object.tokens .operand ++ symbol '[' :: key.tokens .expression ++ [symbol ']'])
  | .object properties _ =>
    enclosed position .objectLevel
      (symbol '\x7b' :: separated (Property.eachTokens properties) ++ [symbol '\x7d'])

def Expr.eachTokens : List Expr → List (List Token)
  | [] => []
  | e :: es => e.tokens .expression :: Expr.eachTokens es

def Property.tokens : Property → List Token
  | .shorthand key _ => [word key]
  | .field key value _ => word key :: symbol ':' :: value.tokens .expression

def Property.eachTokens : List Property → List (List Token)
  | [] => []
  | p :: ps => p.tokens :: Property.eachTokens ps

end

mutual

def Stmt.tokens : Stmt → List Token
  | .declare name constant none _ => [word (if constant then "const" else "let"), word name]
  | .declare name constant (some e) _ =>
    word (if constant then "const" else "let") :: word name :: symbol '=' ::
      e.tokens spell .expression
  | .function name params body _ =>
    word "fn" :: word name :: symbol '(' :: separated (params.map fun p => [word p]) ++
      symbol ')' :: symbol '\x7b' :: Stmt.allTokens body ++ [symbol '\x7d']
  | .expr e _ => e.tokens spell .expression

def Stmt.allTokens : List Stmt → List Token
  | [] => []
  | s :: ss => s.tokens ++ symbol ';' :: Stmt.allTokens ss

end

def Program.printed (program : Program) : String := Token.spaced (Stmt.allTokens spell program)

/-! ## What can be printed -/

mutual

/-- Names and keys are words, strings have no quotes in them, a property after a dot is a name, and
the spelling of a number reads as its value. -/
def Expr.Printable : Expr → Prop
  | .number value line =>
    Token.IsDecimal (spell value line) ∧ Numeral.read? (spell value line) = some value
  | .string value _ => '"' ∉ value.toList
  | .name name _ => IsName name
  | .binary left _ right _ => left.Printable ∧ right.Printable
  | .assign target value _ => target.Printable ∧ value.Printable
  | .call callee arguments _ => callee.Printable ∧ Expr.AllPrintable arguments
  | .dot object (.name name _) _ => object.Printable ∧ IsName name
  | .dot _ _ _ => False
  | .index object key _ => object.Printable ∧ key.Printable
  | .object properties _ => Property.AllPrintable properties

def Expr.AllPrintable : List Expr → Prop
  | [] => True
  | e :: es => e.Printable ∧ Expr.AllPrintable es

def Property.Printable : Property → Prop
  | .shorthand key _ => IsName key
  | .field key value _ => IsName key ∧ value.Printable

def Property.AllPrintable : List Property → Prop
  | [] => True
  | p :: ps => p.Printable ∧ Property.AllPrintable ps

end

mutual

def Stmt.Printable : Stmt → Prop
  | .declare name _ none _ => IsName name
  | .declare name _ (some e) _ => IsName name ∧ e.Printable spell
  | .function name params body _ =>
    IsName name ∧ (∀ p ∈ params, IsName p) ∧ Stmt.AllPrintable body
  | .expr e _ => e.Printable spell

def Stmt.AllPrintable : List Stmt → Prop
  | [] => True
  | s :: ss => s.Printable ∧ Stmt.AllPrintable ss

end

def Program.Printable (program : Program) : Prop := Stmt.AllPrintable spell program

end Printing

end ScopeScript
