import ScopeScript.Number.Binary64

/-!
# The shortest decimal that reads back

A word stands for every real that rounds to it: those between the midpoints to its two
neighbours, the midpoints included when the word is even.  `shortest w` is a decimal among
these on the coarsest grid of powers of ten that has one, and of the points of that grid the
nearest to `w`.  A point halfway between two is left for the larger one.
-/

namespace ScopeScript

/-- The number `digits * 10 ^ exponent`. -/
structure Decimal where
  digits : Nat
  exponent : Int
  deriving DecidableEq, Repr

namespace Decimal

open Binary64

/-! ## Reading -/

/-- The word nearest to `d`.  A large exponent overflows and a very negative one vanishes
whatever the digits, so no power of ten beyond the size of the digits is computed. -/
def toWord (d : Decimal) : Nat :=
  if d.digits = 0 then 0
  else if 310 < d.exponent then infinityWord
  else if d.exponent + d.digits.log2 + 1 < -330 then 0
  else nearestWord (d.digits * Nat.pow 10 d.exponent.toNat * unitsPerOne)
    (Nat.pow 10 (-d.exponent).toNat)

/-! ## Writing -/

/-- Twice the bounds, in units, of the reals that round to `w`. -/
def lowerBound (w : Nat) : Nat := units (w - 1) + units w

def upperBound (w : Nat) : Nat := units w + units (w + 1)

/-- The point nearest to `w` of the multiples of `10 ^ k` that round to `w`, if there is one. -/
def onGrid? (w : Nat) (k : Int) : Option Decimal :=
  let scale := Nat.pow 10 (-k).toNat
  let step := Nat.pow 10 k.toNat * (2 * unitsPerOne)
  let value := 2 * units w * scale
  let low := lowerBound w * scale
  let high := upperBound w * scale
  let inside (p : Nat) : Bool :=
    if w % 2 == 0 then low ≤ p && p ≤ high else low < p && p < high
  let d := value / step
  let down := d * step
  let up := (d + 1) * step
  if inside down && (!inside up || value - down < up - value) then some ⟨d, k⟩
  else if inside up then some ⟨d + 1, k⟩
  else none

/-- The least `k` with `w` below `10 ^ k`. -/
def ceilingPower (w : Nat) : Int :=
  (Nat.toDigits 10 (units w * Nat.pow 10 330 / unitsPerOne)).length - 330

/-- The shortest decimal that reads back as the positive finite word `w`.  Seventeen digits always
do, so the exact value that stands last is not reached. -/
def shortest (w : Nat) : Decimal :=
  ((List.range 18).findSome? fun (n : Nat) => onGrid? w (ceilingPower w - n)).getD
    ⟨units w * Nat.pow 5 1074, -1074⟩

end Decimal

end ScopeScript
