import Lox.Number.Double

/-!
The shortest decimal that reads back to a given binary number.

A positive number is given as `m * 2 ^ q`. Every real in its rounding interval reads back to it:
the interval reaches half a step up and half a step down (a quarter step down where the spacing
changes, at a power of two), and its ends belong to it exactly when `m` is even. On each decimal
grid only the two neighbours of the number need to be tried; the first grid, from coarse to fine,
with a neighbour inside the interval gives the fewest digits, and of two such neighbours the
nearer one is taken.
-/

namespace Lox.Number

/-- A decimal `digits * 10 ^ exponent`. -/
structure Decimal where
  digits : Nat
  exponent : Int
  deriving DecidableEq, Repr

/-- The positive number `mantissa * 2 ^ exponent`, with the width of the gap below it. -/
structure Binary where
  mantissa : Nat
  exponent : Int
  /-- The gap below is half the gap above: the number is the first of its binade. -/
  narrowBelow : Bool
  deriving DecidableEq, Repr

/-- `2 ^ e`, or one for a negative exponent. -/
def twoPow (e : Int) : Nat := Nat.pow 2 e.toNat

/-- `10 ^ e`, or one for a negative exponent. -/
def tenPow (e : Int) : Nat := Nat.pow 10 e.toNat

namespace Binary

/-- The three points of the rounding interval (low end, number, high end) in quarters of the gap
above, on the scale that makes the grid `10 ^ p` integral as well; the last component is that
grid's step. -/
def scaled (b : Binary) (p : Int) : Nat × Nat × Nat × Nat :=
  let unit := twoPow (b.exponent - 2) * tenPow (-p)
  let low := if b.narrowBelow then 4 * b.mantissa - 1 else 4 * b.mantissa - 2
  (low * unit, 4 * b.mantissa * unit, (4 * b.mantissa + 2) * unit,
    twoPow (2 - b.exponent) * tenPow p)

/-- The multiple of `10 ^ p` that stands for the number: the nearer of its two neighbours on that
grid that lie in the rounding interval, the upper one at equal distance. -/
def onGrid? (b : Binary) (p : Int) : Option Nat :=
  let (low, value, high, step) := b.scaled p
  let inside := fun x => if b.mantissa % 2 = 0 then low ≤ x ∧ x ≤ high else low < x ∧ x < high
  let down := value / step
  let up := down + 1
  if inside (down * step) then
    if inside (up * step) ∧ up * step - value ≤ value - down * step then some up else some down
  else if inside (up * step) then some up
  else none

/-- The first grid at or below `10 ^ p` that holds a decimal for the number. Within twenty steps
from a power of ten above the number there is one; past them the last neighbour is given. -/
def shortestFrom (b : Binary) : Nat → Int → Decimal
  | 0, p => ⟨(b.scaled p).2.1 / (b.scaled p).2.2.2, p⟩
  | steps + 1, p =>
    match b.onGrid? p with
    | some digits => ⟨digits, p⟩
    | none => shortestFrom b steps (p - 1)

/-- An exponent whose power of ten is above the number, by at most a factor of a thousand. -/
def decimalCeiling (b : Binary) : Int :=
  ((b.mantissa.log2 + b.exponent) * 30103) / 100000 + 2

/-- The shortest decimal that reads back to the number. -/
def shortest (b : Binary) : Decimal :=
  b.shortestFrom 24 b.decimalCeiling

end Binary

/-- A finite, nonzero double without its sign. -/
def Binary.ofDouble (x : Double) : Binary :=
  if x.storedExponent = 0 then ⟨x.storedFraction, -1074, false⟩
  else
    ⟨twoPow 52 + x.storedFraction, x.storedExponent - 1075,
      x.storedFraction = 0 ∧ 1 < x.storedExponent⟩

end Lox.Number
