import Lox.Number.Shortest

/-!
How numbers are written and read.

A number is written with the fewest digits that read back to it, always positionally, without a
fraction when it is integral. A literal is a run of digits, optionally followed by a point and a
second run; it denotes the double nearest to it.
-/

namespace Lox.Number

/-- The decimal digits of a natural number. -/
def digitsOf (n : Nat) : List Char := Nat.toDigits 10 n

/-- A decimal in positional form. -/
def Decimal.positional (d : Decimal) : List Char :=
  let digits := digitsOf d.digits
  match d.exponent with
  | .ofNat zeros => digits ++ List.replicate zeros '0'
  | .negSucc k =>
    let places := k + 1
    let whole := digits.length - places
    if digits.length ≤ places then
      '0' :: '.' :: (List.replicate (places - digits.length) '0' ++ digits)
    else digits.take whole ++ '.' :: digits.drop whole

/-- The text of a number without its sign. -/
def magnitudeText (x : Double) : String :=
  if x.isInfinite then "inf"
  else if x.isZero then "0"
  else String.ofList (Binary.ofDouble x).shortest.positional

/-- The text of a number: positional, with the fewest digits, with a sign for everything below
zero and for the negative zero. -/
def text (x : Double) : String :=
  if x.isNaN then "NaN"
  else if x.isNegative then "-" ++ magnitudeText x
  else magnitudeText x

/-- The value of a run of digits. -/
def digitsValue (digits : List Char) : Nat :=
  digits.foldl (fun n c => 10 * n + (c.toNat - '0'.toNat)) 0

/-- The double denoted by a literal with the given digits before and after the point. -/
def ofDigits (whole fraction : List Char) : Double :=
  .ofFloat (.ofScientific (digitsValue (whole ++ fraction)) true fraction.length)

end Lox.Number
