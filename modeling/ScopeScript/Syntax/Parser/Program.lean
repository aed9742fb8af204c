import ScopeScript.Syntax.Parser.Expr

/-!
# Statements and programs

    program ::= statements
    statements ::= (`;`* statement)* `;`*
    statement ::= (`let` | `const`) identifier (`=` expression)?
                | `fn` identifier `(` parameters `)` block
                | expression
    block ::= `{` statements `}`

A program ends at the first end token.  Nothing has to stand between two statements.
-/

namespace ScopeScript

namespace Parser

/-! ## Statements -/

/-- A variable or a constant, from its keyword on. -/
def declaration (n : Nat) (constant : Bool) : Parser Stmt := do
  let line := (← peek).line
  advance
  let name ← identifier
  if (← peekKind) = .equals then
    advance
    return .declare name constant (some (← expressionAt n)) line
  else return .declare name constant none line

/-- Statements up to a token at which `ends` holds; `n` bounds the tokens left. -/
def statements (item : Parser Stmt) (ends : TokenKind → Bool) : Nat → Parser (List Stmt)
  | 0 => return []
  | n + 1 => do
    skipSemicolons
    if ends (← peekKind) then return []
    else
      let s ← item
      return s :: (← statements item ends n)

def endsBlock (kind : TokenKind) : Bool := kind == .rightBrace || kind == .eof

def block (n : Nat) (item : Parser Stmt) : Parser (List Stmt) := do
  let opener ← expect .leftBrace (.token .leftBrace)
  within .curly opener.line do
    let body ← statements item endsBlock n
    close .curly opener.line
    return body

/-- A function, from its keyword on. -/
def function (n : Nat) (item : Parser Stmt) : Parser Stmt := do
  let line := (← peek).line
  advance
  let name ← identifier
  let opener ← expect .leftParen (.token .leftParen)
  let params ← within .round opener.line (commaList identifier .round opener.line n)
  let body ← block n item
  return .function name params body line

/-- A statement of at most `n` tokens, given a parser of the statements inside it. -/
def statementWith (n : Nat) (item : Parser Stmt) : Parser Stmt := do
  let t ← peek
  match t.kind with
  | .letKeyword => declaration n false
  | .constKeyword => declaration n true
  | .fnKeyword => function n item
  | _ => return .expr (← expressionAt n) t.line

/-! ## Statements of any size -/

def statementAt : Nat → Parser Stmt
  | 0 => refuse .expression
  | n + 1 => statementWith (n + 1) (statementAt n)

def statement : Parser Stmt := sized statementAt

/-- Statements between braces. -/
def statementList : Parser (List Stmt) := sized fun n => block n (statementAt n)

/-- All statements up to the first end token. -/
def program : Parser Program := sized fun n => statements (statementAt n) (· == .eof) n

end Parser

/-- The program that a list of tokens spells. -/
def Program.ofTokens (tokens : List Token) : Except ParseError Program :=
  match Parser.program.run tokens with
  | .ok program _ => .ok program
  | .error e _ => .error e

end ScopeScript
