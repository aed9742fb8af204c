import ScopeScript.Token

/-!
# Reading tokens from a text

`scan line cs` takes the longest token off the front of `cs`, again and again; `line` is the line
of the first character of `cs`.  Blanks separate tokens and are dropped, line feeds are counted,
also those inside strings.  The answer ends with exactly one end token, on the last line.

    tokensOf s = scan 1 s.toList
-/

namespace ScopeScript

/-- Why a text has no tokens.  Each cause carries the line on which the bad token starts. -/
inductive ScanError where
  | unexpectedChar (char : Char) (line : Nat)
  | unterminatedString (line : Nat)
  /-- A number with two or more points; `text` is the whole run of digits and points. -/
  | malformedNumber (text : String) (line : Nat)
  deriving DecidableEq, Repr

namespace ScanError

def line : ScanError → Nat
  | unexpectedChar _ line => line
  | unterminatedString line => line
  | malformedNumber _ line => line

/-- The cause without its line. -/
def describe : ScanError → String
  | unexpectedChar c _ => "Unexpected character '" ++ c.toString ++ "'."
  | unterminatedString _ => "Unterminated string literal."
  | malformedNumber text _ => "Malformed number literal '" ++ text ++ "'."

end ScanError

namespace Token

/-! ## Character classes -/

/-- Characters that separate tokens; a line feed also ends a line. -/
def isBlank (c : Char) : Bool := c == ' ' || c == '\t' || c == '\r' || c == '\n'

/-- Words are runs of these: ASCII letters and the underscore, no digits. -/
def isWordChar (c : Char) : Bool := c.isAlpha || c == '_'

/-- A number starts with a digit and goes on with these. -/
def isNumberChar (c : Char) : Bool := c.isDigit || c == '.'

/-- The kind of a token that is a single character. -/
def symbolKind? : Char → Option TokenKind
  | '(' => some .leftParen
  | ')' => some .rightParen
  | '{' => some .leftBrace
  | '}' => some .rightBrace
  | '[' => some .leftBracket
  | ']' => some .rightBracket
  | ',' => some .comma
  | ':' => some .colon
  | ';' => some .semicolon
  | '.' => some .dot
  | '=' => some .equals
  | '+' | '-' | '*' | '/' | '%' => some .operator
  | _ => none

/-- A word is an identifier unless it spells a keyword in full. -/
def wordKind (word : List Char) : TokenKind :=
  if word = ['l', 'e', 't'] then .letKeyword
  else if word = ['c', 'o', 'n', 's', 't'] then .constKeyword
  else if word = ['f', 'n'] then .fnKeyword
  else .identifier

/-! ## Algorithm -/

theorem length_dropWhile_lt_cons {α : Type} (p : α → Bool) (x : α) (xs : List α) :
    (xs.dropWhile p).length < (x :: xs).length :=
  Nat.lt_succ_of_le (List.dropWhile_suffix p).length_le

theorem length_tail_dropWhile_lt_cons {α : Type} (p : α → Bool) (x : α) (xs : List α) :
    (xs.dropWhile p).tail.length < (x :: xs).length :=
  Nat.lt_of_le_of_lt (List.tail_suffix _).length_le (length_dropWhile_lt_cons p x xs)

/-- The tokens of `cs`, whose first character stands on line `line`. -/
def scan (line : Nat) : List Char → Except ScanError (List Token)
  | [] => .ok [endAt line]
  | c :: cs =>
    if c = '\n' then scan (line + 1) cs
    else if isBlank c then scan line cs
    else if c.isDigit then
      let run := c :: cs.takeWhile isNumberChar
      if 1 < run.count '.' then .error (.malformedNumber (String.ofList run) line)
      else do
        let rest ← scan line (cs.dropWhile isNumberChar)
        return ⟨.number, String.ofList run, line⟩ :: rest
    else if isWordChar c then do
      let word := c :: cs.takeWhile isWordChar
      let rest ← scan line (cs.dropWhile isWordChar)
      return ⟨wordKind word, String.ofList word, line⟩ :: rest
    else if c = '"' then
      let body := cs.takeWhile (· != '"')
      let close := cs.dropWhile (· != '"')
      if close.isEmpty then .error (.unterminatedString line)
      else do
        let rest ← scan (line + body.count '\n') close.tail
        return ⟨.string, String.ofList body, line⟩ :: rest
    else
      match symbolKind? c with
      | none => .error (.unexpectedChar c line)
      | some kind => do
        let rest ← scan line cs
        return ⟨kind, c.toString, line⟩ :: rest
  termination_by cs => cs.length
  decreasing_by
    · exact Nat.lt_succ_self _
    · exact Nat.lt_succ_self _
    · exact length_dropWhile_lt_cons ..
    · exact length_dropWhile_lt_cons ..
    · exact length_tail_dropWhile_lt_cons ..
    · exact Nat.lt_succ_self _

/-- The tokens of a whole text. -/
def tokensOf (source : String) : Except ScanError (List Token) :=
  scan 1 source.toList

end Token

end ScopeScript
