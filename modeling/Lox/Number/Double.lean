/-!
Numbers as a program's text and tree hold them: doubles by their bits.

The bits are a sign, an exponent of eleven bits and a fraction of fifty-two. With the greatest
exponent they stand for an infinity, if the fraction is zero, and for NaN otherwise. There are many
NaNs: they are different numbers in a tree, although no program can tell apart what they evaluate
to.
-/

namespace Lox

/-- A double by its bits. -/
structure Double where
  bits : UInt64
  deriving DecidableEq, Repr

namespace Double

/-- Whether the sign bit is set. -/
def isNegative (x : Double) : Bool := x.bits >>> 63 = 1

/-- The exponent as it is stored. -/
def storedExponent (x : Double) : Nat := ((x.bits >>> 52) &&& 0x7ff).toNat

/-- The fraction as it is stored. -/
def storedFraction (x : Double) : Nat := (x.bits &&& 0x000fffffffffffff).toNat

/-- The exponent of the infinities and NaNs. -/
def greatestExponent : Nat := 2047

/-- Whether the bits stand for no number. -/
def isNaN (x : Double) : Bool := x.storedExponent = greatestExponent ∧ x.storedFraction ≠ 0

/-- Whether the bits stand for an infinity. -/
def isInfinite (x : Double) : Bool := x.storedExponent = greatestExponent ∧ x.storedFraction = 0

/-- Whether the bits stand for a zero. -/
def isZero (x : Double) : Bool := x.storedExponent = 0 ∧ x.storedFraction = 0

/-- The value to compute with. -/
def toFloat (x : Double) : Float := .ofBits x.bits

/-- The bits of a value. Those of NaN are always the same. -/
def ofFloat (x : Float) : Double := ⟨x.toBits⟩

end Double

end Lox
