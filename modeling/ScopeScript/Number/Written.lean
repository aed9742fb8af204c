import ScopeScript.Number.Shortest

/-!
# How numbers are written

`formatNumber` is the form that scripts see: digits in full, never an exponent, so that
`1e21` has twenty-two digits.  Whole numbers up to `2 ^ 53 - 1` are written as integers; the
general form `positionalForm` agrees there.  `exactForm` is the form of program outlines: it
always shows that the number is a double, and uses an exponent for very large and very small
magnitudes.
-/

namespace ScopeScript

open Binary64

namespace Decimal

/-- The digits of `d` in full, with a point only before decimals. -/
def positional (d : Decimal) : List Char :=
  let digits := Nat.toDigits 10 d.digits
  if 0 ≤ d.exponent then digits ++ List.replicate d.exponent.toNat '0'
  else
    let places := (-d.exponent).toNat
    if places < digits.length then
      digits.take (digits.length - places) ++ '.' :: digits.drop (digits.length - places)
    else '0' :: '.' :: (List.replicate (places - digits.length) '0' ++ digits)

/-- The power of ten of the first digit of `d`. -/
def leadingPower (d : Decimal) : Int :=
  d.exponent + ((Nat.toDigits 10 d.digits).length - 1 : Nat)

/-- One digit, a point before further ones, and the power of ten. -/
def scientific (d : Decimal) : List Char :=
  let fraction := (Nat.toDigits 10 d.digits).drop 1
  (Nat.toDigits 10 d.digits).take 1 ++ (if fraction.isEmpty then [] else '.' :: fraction)
    ++ 'e' :: (toString d.leadingPower).toList

end Decimal

/-- The sign of `x`, then `NaN` without one, `inf`, or what `finite` makes of the word. -/
def signedForm (finite : Nat → List Char) (x : Float) : String :=
  if infinityWord < word x then "NaN"
  else
    let magnitude := if word x = infinityWord then ['i', 'n', 'f'] else finite (word x)
    String.ofList (if isNegative x then '-' :: magnitude else magnitude)

/-- The shortest digits that read back, in full. -/
def positionalForm (x : Float) : String :=
  signedForm (fun w => if w = 0 then ['0'] else (Decimal.shortest w).positional) x

/-- The integer that `x` is, if its magnitude is at most `2 ^ 53 - 1` and it is not `-0`. -/
def safeInteger? (x : Float) : Option Int :=
  let w := word x
  if infinityWord ≤ w || (w == 0 && isNegative x) then none
  else if units w % unitsPerOne != 0 then none
  else
    let n := units w / unitsPerOne
    if n < Nat.pow 2 53 then some (if isNegative x then -(n : Int) else n) else none

/-- The text of a number as scripts see it. -/
def formatNumber (x : Float) : String :=
  match safeInteger? x with
  | some n => toString n
  | none => positionalForm x

/-- Decimals from `10 ^ -4` to below `10 ^ 16` are written in full, with a point; the others
with an exponent. -/
def exactForm (x : Float) : String :=
  signedForm (fun w =>
    if w = 0 then ['0', '.', '0']
    else
      let d := Decimal.shortest w
      if d.leadingPower < -4 || 15 < d.leadingPower then d.scientific
      else if 0 ≤ d.exponent then d.positional ++ ['.', '0'] else d.positional) x

end ScopeScript
