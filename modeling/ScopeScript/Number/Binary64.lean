/-!
# Doubles by their bits

The bits of a double below the sign are its *word*.  Words are ordered as the magnitudes they
stand for, and every finite magnitude is a whole number of *units*, the smallest positive double,
of which `unitsPerOne` make one.  So values compare as natural numbers:

* `units w` is the magnitude of the word `w` in units;
* `nearestWord num den` is the word nearest to `num / den` units, a tie going to the even word;
* `remainder x y` is exact, as it is a remainder of units.
-/

namespace ScopeScript.Binary64

/-- The word of infinity; the words above it are not numbers. -/
def infinityWord : Nat := 2047 * Nat.pow 2 52

/-- How many units make the number one. -/
def unitsPerOne : Nat := Nat.pow 2 1074

/-- The bits of `x` below the sign. -/
def word (x : Float) : Nat := x.toBits.toNat % Nat.pow 2 63

def isNegative (x : Float) : Bool := Nat.pow 2 63 ≤ x.toBits.toNat

/-- The double with the given sign and word. -/
def ofWord (negative : Bool) (w : Nat) : Float :=
  Float.ofBits (UInt64.ofNat (if negative then Nat.pow 2 63 + w else w))

/-- The double that is not a number. -/
def nan : Float := 0.0 / 0.0

/-- The magnitude of a finite word, in units. -/
def units (w : Nat) : Nat :=
  if w < Nat.pow 2 52 then w
  else (Nat.pow 2 52 + w % Nat.pow 2 52) * Nat.pow 2 (w / Nat.pow 2 52 - 1)

/-- The natural number nearest to `num / den`, the even one of two that are equally near. -/
def roundHalfEven (num den : Nat) : Nat :=
  let q := num / den
  let r := num % den
  if den < 2 * r || (2 * r == den && q % 2 == 1) then q + 1 else q

/-- The word nearest to `num / den` units.  Above `2 ^ 53` units the words are `2 ^ step` units
apart; a quotient that rounds up to the next power of two carries into the exponent. -/
def nearestWord (num den : Nat) : Nat :=
  let step := (num / den).log2 - 52
  min (step * Nat.pow 2 52 + roundHalfEven num (den * Nat.pow 2 step)) infinityWord

/-- What is left of `x` when whole multiples of `y` are taken from it.  It has the sign of `x`;
nothing is left to divide by zero, and an infinite `y` leaves `x` as it is. -/
def remainder (x y : Float) : Float :=
  let wx := word x
  let wy := word y
  if infinityWord ≤ wx || infinityWord < wy || wy == 0 then nan
  else if wy == infinityWord then x
  else ofWord (isNegative x) (nearestWord (units wx % units wy) 1)

end ScopeScript.Binary64
