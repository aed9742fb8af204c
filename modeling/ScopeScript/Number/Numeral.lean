import ScopeScript.Number.Shortest

/-!
# Reading a number from its text

    numeral ::= sign? (`inf` | `infinity` | `nan` | decimal exponent?)
    decimal ::= digit+ | digit+ `.` digit* | `.` digit+
    exponent ::= `e` sign? digit+

Letters may be in either case.  A decimal reads as the nearest double, see `Decimal.toWord`.
-/

namespace ScopeScript

/-- A numeral without its sign. -/
inductive Numeral where
  | notANumber
  | infinity
  | decimal (value : Decimal)
  deriving DecidableEq, Repr

namespace Numeral

/-! ## Algorithm -/

/-- The number that a run of digits spells. -/
def digitsValue (digits : List Char) : Nat :=
  digits.foldl (fun n c => 10 * n + (c.toNat - '0'.toNat)) 0

/-- Takes a sign off the front; `true` means minus. -/
def takeSign : List Char → Bool × List Char
  | '-' :: cs => (true, cs)
  | '+' :: cs => (false, cs)
  | cs => (false, cs)

/-- The digits before the point, those after it, and what follows. -/
def splitDecimal (cs : List Char) : List Char × List Char × List Char :=
  let whole := cs.takeWhile Char.isDigit
  match cs.dropWhile Char.isDigit with
  | '.' :: after => (whole, after.takeWhile Char.isDigit, after.dropWhile Char.isDigit)
  | after => (whole, [], after)

/-- The exponent that a whole text spells, zero for the empty one. -/
def exponent? : List Char → Option Int
  | [] => some 0
  | c :: cs =>
    if c = 'e' ∨ c = 'E' then
      let (negative, digits) := takeSign cs
      if digits.isEmpty || !digits.all Char.isDigit then none
      else some (if negative then -(digitsValue digits : Int) else digitsValue digits)
    else none

/-- A numeral without a sign that is a word, if it is one. -/
def named? (cs : List Char) : Option Numeral :=
  let lower := cs.map Char.toLower
  if lower = ['n', 'a', 'n'] then some .notANumber
  else if lower = ['i', 'n', 'f'] ∨ lower = ['i', 'n', 'f', 'i', 'n', 'i', 't', 'y'] then
    some .infinity
  else none

/-- The numeral without a sign that `cs` spells. -/
def unsigned? (cs : List Char) : Option Numeral :=
  match named? cs with
  | some n => some n
  | none =>
    let (whole, fraction, after) := splitDecimal cs
    if whole.isEmpty && fraction.isEmpty then none
    else
      match exponent? after with
      | none => none
      | some e => some (.decimal ⟨digitsValue (whole ++ fraction), e - fraction.length⟩)

/-- The double that a numeral stands for. -/
def toFloat (negative : Bool) : Numeral → Float
  | notANumber => Binary64.nan
  | infinity => Binary64.ofWord negative Binary64.infinityWord
  | decimal d => Binary64.ofWord negative d.toWord

/-- The double that `text` spells, if it is a numeral. -/
def read? (text : String) : Option Float :=
  let (negative, cs) := takeSign text.toList
  (unsigned? cs).map (toFloat negative)

end Numeral

end ScopeScript
