/-!
# Tokens

A token is its kind, its text and the line it starts on.  `TokenKind.describe` names a kind in a
message that asks for one, `Token.shown` names a token that was met.
-/

namespace ScopeScript

/-- The classes of tokens. -/
inductive TokenKind where
  | number
  | identifier
  | string
  | letKeyword
  | constKeyword
  | fnKeyword
  | leftParen
  | rightParen
  | leftBrace
  | rightBrace
  | leftBracket
  | rightBracket
  | comma
  | colon
  | semicolon
  | dot
  | equals
  /-- One of `+ - * / %`, which the token's text tells apart. -/
  | operator
  | eof
  deriving DecidableEq, Repr, Inhabited

/-- How a message asks for a token of this kind. -/
def TokenKind.describe : TokenKind → String
  | .number => "number"
  | .identifier => "identifier"
  | .string => "string"
  | .letKeyword => "'let'"
  | .constKeyword => "'const'"
  | .fnKeyword => "'fn'"
  | .leftParen => "'('"
  | .rightParen => "')'"
  | .leftBrace => "'\x7b'"
  | .rightBrace => "'\x7d'"
  | .leftBracket => "'['"
  | .rightBracket => "']'"
  | .comma => "','"
  | .colon => "':'"
  | .semicolon => "';'"
  | .dot => "'.'"
  | .equals => "'='"
  | .operator => "operator"
  | .eof => "end of input"

/-- The text of a string token is what stands between its quotes. -/
structure Token where
  kind : TokenKind
  text : String
  line : Nat
  deriving DecidableEq, Repr, Inhabited

namespace Token

/-- The token that ends a text whose last line is `line`. -/
def endAt (line : Nat) : Token := ⟨.eof, "", line⟩

def isEnd (t : Token) : Bool := t.kind == .eof

/-- How a message names a token that was met. -/
def shown (t : Token) : String :=
  match t.kind with
  | .eof => "end of input"
  | .string => "\"" ++ t.text ++ "\""
  | _ => "'" ++ t.text ++ "'"

end Token

end ScopeScript
