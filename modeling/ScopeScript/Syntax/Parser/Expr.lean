import ScopeScript.Syntax.Parser.Basic
import ScopeScript.Number.Numeral

/-!
# Expressions

    assignment ::= objectLevel (`=` assignment)?
    objectLevel ::= object literal | sum
    sum ::= product ((`+` | `-`) product)*
    product ::= operand ((`*` | `/` | `%`) operand)*
    operand ::= primary (`.` identifier | `[` assignment `]` | `(` arguments `)`)*
    primary ::= identifier | number | string | `(` assignment `)`

The levels are written for a parser `inner` of the expressions inside them, which always start
at least one token later.  So `expressionAt n`, which reads any expression of at most `n` tokens,
is made from `expressionAt (n - 1)`, and `n` also bounds the rounds of every repetition.
-/

namespace ScopeScript.Parser

/-- The operator that a token spells. -/
def operatorOf? (t : Token) : Option BinaryOp :=
  if t.kind = .operator then BinaryOp.ofSymbol? t.text else none

def isAdditive : BinaryOp → Bool
  | .add | .sub => true
  | .mul | .div | .rem => false

def isMultiplicative (op : BinaryOp) : Bool := !isAdditive op

/-! ## Levels -/

def primary (inner : Parser Expr) : Parser Expr := do
  let t ← peek
  match t.kind with
  | .identifier =>
    advance
    return .name t.text t.line
  | .number =>
    advance
    match Numeral.read? t.text with
    | some x => return .number x t.line
    | none => throw (.unexpected .numericLiteral t)
  | .string =>
    advance
    return .string t.text t.line
  | .leftParen =>
    advance
    within .round t.line do
      let e ← inner
      close .round t.line
      return e
  | _ => refuse .expression

/-- Whatever is applied to an operand: properties, keys and calls. -/
def suffixes (inner : Parser Expr) : Nat → Expr → Parser Expr
  | 0, e => return e
  | n + 1, e => do
    let t ← peek
    match t.kind with
    | .dot =>
      advance
      let nameLine := (← peek).line
      let name ← identifier
      suffixes inner n (.dot e (.name name nameLine) t.line)
    | .leftBracket =>
      advance
      let key ← within .square t.line do
        let key ← inner
        close .square t.line
        return key
      suffixes inner n (.index e key t.line)
    | .leftParen =>
      advance
      let arguments ← within .round t.line (commaList inner .round t.line n)
      suffixes inner n (.call e arguments t.line)
    | _ => return e

def operand (n : Nat) (inner : Parser Expr) : Parser Expr := do
  suffixes inner n (← primary inner)

/-- Operators of one level and their right operands, grouped to the left. -/
def chain (level : Parser Expr) (accepts : BinaryOp → Bool) : Nat → Expr → Parser Expr
  | 0, left => return left
  | n + 1, left => do
    let t ← peek
    match operatorOf? t with
    | some op =>
      if accepts op then
        advance
        let right ← level
        chain level accepts n (.binary left op right t.line)
      else return left
    | none => return left

def product (n : Nat) (inner : Parser Expr) : Parser Expr := do
  chain (operand n inner) isMultiplicative n (← operand n inner)

def sum (n : Nat) (inner : Parser Expr) : Parser Expr := do
  chain (product n inner) isAdditive n (← product n inner)

/-- The properties of an object literal, up to its closing brace.  A comma may stand before it. -/
def properties (inner : Parser Expr) : Nat → Parser (List Property)
  | 0 => return []
  | n + 1 => do
    let t ← peek
    if t.kind = .rightBrace ∨ t.kind = .eof then return []
    let key ← identifier
    let kind ← peekKind
    if kind = .comma then
      advance
      return .shorthand key t.line :: (← properties inner n)
    else if kind = .rightBrace then
      return .shorthand key t.line :: (← properties inner n)
    else
      let _ ← expect .colon (.token .colon)
      let value ← inner
      let kind ← peekKind
      if kind = .comma then
        advance
        return .field key value t.line :: (← properties inner n)
      else if kind = .rightBrace ∨ kind = .eof then
        return .field key value t.line :: (← properties inner n)
      else refuse (.commaOr .rightBrace)

def objectLevel (n : Nat) (inner : Parser Expr) : Parser Expr := do
  let t ← peek
  if t.kind = .leftBrace then
    advance
    within .curly t.line do
      let ps ← properties inner n
      close .curly t.line
      return .object ps t.line
  else sum n inner

def assignment (n : Nat) (inner : Parser Expr) : Parser Expr := do
  let left ← objectLevel n inner
  let t ← peek
  if t.kind = .equals then
    advance
    return .assign left (← inner) t.line
  else return left

/-! ## Expressions of any size -/

/-- Reads an expression from at most `n` tokens; none of them hold none. -/
def expressionAt : Nat → Parser Expr
  | 0 => refuse .expression
  | n + 1 => assignment (n + 1) (expressionAt n)

/-- Runs a parser with a bound on the tokens that are left. -/
def sized {α : Type} (p : Nat → Parser α) : Parser α := do
  p (← get).length

/-- An expression. -/
def expression : Parser Expr := sized expressionAt

/-- An object literal or a sum: what can stand to the left of `=`. -/
def objectLiteral : Parser Expr := sized fun n => objectLevel n (expressionAt n)

def additive : Parser Expr := sized fun n => sum n (expressionAt n)

def multiplicative : Parser Expr := sized fun n => product n (expressionAt n)

end ScopeScript.Parser
