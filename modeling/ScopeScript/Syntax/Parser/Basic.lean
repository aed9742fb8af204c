import ScopeScript.Token
import ScopeScript.Syntax

/-!
# Parsers over tokens

A parser takes tokens off the front of a list.  It fails with an error and with the tokens that
were left when it failed, so that whoever called it can see what stood next.  A list that is used
up behaves as if one more end token stood there, on line 0.

Inside brackets, an error at the end of the input means that the bracket was never closed:
`within` says so, and names the innermost such bracket.
-/

namespace ScopeScript

inductive Bracket where
  | round
  | square
  | curly
  deriving DecidableEq, Repr

namespace Bracket

def opening : Bracket → TokenKind
  | round => .leftParen
  | square => .leftBracket
  | curly => .leftBrace

def closing : Bracket → TokenKind
  | round => .rightParen
  | square => .rightBracket
  | curly => .rightBrace

def openingChar : Bracket → Char
  | round => '('
  | square => '['
  | curly => '\x7b'

end Bracket

/-- What a parser asked for. -/
inductive Expectation where
  | expression
  | identifier
  | numericLiteral
  | token (kind : TokenKind)
  /-- Another item of a list, or the end of the list. -/
  | commaOr (closing : TokenKind)
  deriving DecidableEq, Repr

def Expectation.describe : Expectation → String
  | expression => "expression"
  | identifier => "identifier"
  | numericLiteral => "numeric literal"
  | token kind => kind.describe
  | commaOr closing => "',' or " ++ closing.describe

/-- Why tokens are no program. -/
inductive ParseError where
  | unexpected (expected : Expectation) (found : Token)
  /-- The input ended inside a bracket that was opened on `line`. -/
  | unclosed (bracket : Bracket) (line : Nat)
  deriving DecidableEq, Repr

namespace ParseError

def line : ParseError → Nat
  | unexpected _ found => found.line
  | unclosed _ line => line

/-- The cause without its line. -/
def describe : ParseError → String
  | unexpected expected found => "Expected " ++ expected.describe ++ ", found " ++ found.shown ++ "."
  | unclosed bracket _ => "Unclosed '" ++ bracket.openingChar.toString ++ "'."

end ParseError

/-- A parser changes the list of tokens that are left. -/
abbrev Parser := EStateM ParseError (List Token)

namespace Parser

/-- The token that stands first. -/
def next (ts : List Token) : Token := ts.headD (.endAt 0)

@[simp]
theorem next_cons (t : Token) (ts : List Token) : next (t :: ts) = t := rfl

def peek : Parser Token := do
  return next (← get)

def peekKind : Parser TokenKind := do
  return (← peek).kind

/-- Takes the next token off. -/
def advance : Parser Unit := modify List.tail

/-- Fails at the next token. -/
def refuse {α : Type} (expected : Expectation) : Parser α := do
  throw (.unexpected expected (← peek))

/-- Takes a token of the given kind. -/
def expect (kind : TokenKind) (expected : Expectation) : Parser Token := do
  let t ← peek
  if t.kind = kind then
    advance
    return t
  else refuse expected

def identifier : Parser String := do
  return (← expect .identifier .identifier).text

/-- Takes the token that closes a bracket opened on `line`. -/
def close (bracket : Bracket) (line : Nat) : Parser Unit := do
  let kind ← peekKind
  if kind = bracket.closing then advance
  else if kind = .eof then throw (.unclosed bracket line)
  else refuse (.token bracket.closing)

/-- Runs a parser inside a bracket opened on `line`.  What it did not expect at the end of the
input is the missing end of the bracket. -/
def within {α : Type} (bracket : Bracket) (line : Nat) (p : Parser α) : Parser α :=
  tryCatch p fun
    | .unexpected expected found => do
      if (← peekKind) = .eof then throw (.unclosed bracket line)
      else throw (.unexpected expected found)
    | e => throw e

/-- The items of a list after its opening bracket, at least one; `n` bounds the tokens left. -/
def items {α : Type} (item : Parser α) (bracket : Bracket) (line : Nat) : Nat → Parser (List α)
  | 0 => throw (.unclosed bracket line)
  | n + 1 => do
    if (← peekKind) = .eof then throw (.unclosed bracket line)
    let x ← item
    let kind ← peekKind
    if kind = .comma then
      advance
      return x :: (← items item bracket line n)
    else if kind = bracket.closing then
      advance
      return [x]
    else if kind = .eof then throw (.unclosed bracket line)
    else refuse (.commaOr bracket.closing)

/-- A list with commas between its items, up to and with the closing bracket.  It may be empty; a
comma before the closing bracket is refused. -/
def commaList {α : Type} (item : Parser α) (bracket : Bracket) (line : Nat) (n : Nat) :
    Parser (List α) := do
  if (← peekKind) = bracket.closing then
    advance
    return []
  else items item bracket line n

def skipSemicolons : Parser Unit := modify (List.dropWhile (·.kind == .semicolon))

end Parser

end ScopeScript
