import Mathlib
import Lox.Number.Text

/-!
Literals denote numbers without a sign.

The bits of a double, read as a natural number, grow with its magnitude: up to the bits of the
infinity they stand for a number that is neither negative nor NaN. The double that a literal denotes
is of this kind (`unsigned_ofDigits`), whatever its digits are. Powers of ten are divided by, and
none of them is zero or infinite, so no division gives NaN.
-/

namespace Lox

open Float.Model Float.Model.UnpackedFloat

/-! ### The parts of a double -/

namespace Double

theorem storedExponent_eq (x : Double) : x.storedExponent = x.bits.toNat / 2 ^ 52 % 2 ^ 11 := by
  unfold storedExponent
  rw [UInt64.toNat_and, UInt64.toNat_shiftRight, Nat.shiftRight_eq_div_pow]
  exact Nat.and_two_pow_sub_one_eq_mod _ 11

theorem storedFraction_eq (x : Double) : x.storedFraction = x.bits.toNat % 2 ^ 52 := by
  unfold storedFraction
  rw [UInt64.toNat_and]
  exact Nat.and_two_pow_sub_one_eq_mod _ 52

theorem isNegative_eq (x : Double) : x.isNegative = decide (2 ^ 63 ≤ x.bits.toNat) := by
  have bound := x.bits.toNat_lt
  have shifted : x.bits >>> 63 = 1 ↔ x.bits.toNat / 2 ^ 63 = 1 := by
    rw [← UInt64.toNat_inj, UInt64.toNat_shiftRight, Nat.shiftRight_eq_div_pow]
    exact Iff.rfl
  unfold isNegative
  rw [decide_eq_decide, shifted]
  omega

/-- The bits are at most those of the infinity. -/
def Unsigned (x : Double) : Prop := x.bits.toNat ≤ 2047 * 2 ^ 52

theorem unsigned_iff {x : Double} : x.Unsigned ↔ x.isNegative = false ∧ x.isNaN = false := by
  have bound := x.bits.toNat_lt
  unfold Unsigned isNaN greatestExponent
  rw [isNegative_eq, storedExponent_eq, storedFraction_eq, decide_eq_false_iff_not,
    decide_eq_false_iff_not]
  omega

end Double

/-! ### The parts of a packed number -/

/-- Neither negative nor NaN. -/
def Positive : UnpackedFloat → Prop
  | .notANumber => False
  | .infinity sign | .zero sign | .finite sign _ _ _ => sign = .positive

theorem toNat_packComponents (e : BitVec 11) (m : BitVec 52) :
    (packComponents Format.binary64 .positive e m).toNat = 2 ^ 52 * e.toNat + m.toNat := by
  have parts : packComponents Format.binary64 .positive e m = 0#1 ++ e ++ m := rfl
  rw [parts, BitVec.toNat_append, BitVec.toNat_append, Nat.shiftLeft_eq, Nat.mul_comm,
    ← Nat.two_pow_add_eq_or_of_lt m.isLt, BitVec.toNat_zero, Nat.zero_shiftLeft, Nat.zero_or]

theorem pack_le {f : UnpackedFloat} (h : Positive f) :
    (UnpackedFloat.pack Format.binary64 f).toNat ≤ 2047 * 2 ^ 52 := by
  cases f with
  | notANumber => exact h.elim
  | infinity | zero =>
    obtain rfl : _ = Sign.positive := h
    decide
  | finite sign m e pos =>
    obtain rfl : _ = Sign.positive := h
    unfold UnpackedFloat.pack
    dsimp only
    split
    · decide
    · rename_i small
      split
      · refine Nat.le_trans (Nat.le_of_eq (toNat_packComponents _ _)) ?_
        have fraction := (BitVec.ofNat 52 m).isLt
        rw [BitVec.toNat_ofNat, Nat.mod_eq_of_lt (by omega)]
        omega
      · refine Nat.le_trans (Nat.le_of_eq (toNat_packComponents _ _)) ?_
        have fraction := (BitVec.ofNat 52 m).isLt
        rw [BitVec.toNat_zero]
        omega

theorem toNat_unpackExponent (b : BitVec 64) :
    (@unpackExponent Format.binary64 b).toNat = b.toNat / 2 ^ 52 % 2 ^ 11 := by
  unfold unpackExponent
  rw [BitVec.toNat_cast, BitVec.extractLsb_toNat, Nat.shiftRight_eq_div_pow]
  rfl

theorem toNat_unpackMantissa (b : BitVec 64) :
    (@unpackMantissa Format.binary64 b).toNat = b.toNat % 2 ^ 52 := by
  unfold unpackMantissa
  rw [BitVec.toNat_cast, BitVec.extractLsb_toNat, Nat.shiftRight_eq_div_pow, Nat.pow_zero,
    Nat.div_one]
  rfl

theorem toNat_unpackSign (b : BitVec 64) :
    (@unpackSign Format.binary64 b).toNat = b.toNat / 2 ^ 63 % 2 := by
  unfold unpackSign
  rw [BitVec.toNat_cast, BitVec.extractLsb_toNat, Nat.shiftRight_eq_div_pow]
  rfl

theorem positive_unpack {b : BitVec 64} (h : b.toNat ≤ 2047 * 2 ^ 52) :
    Positive (UnpackedFloat.unpack Format.binary64 b) := by
  have sign : Sign.ofBitVec (@unpackSign Format.binary64 b) = .positive := by
    have zero : @unpackSign Format.binary64 b = 0#1 := by
      rw [← BitVec.toNat_inj, toNat_unpackSign, BitVec.toNat_zero]
      omega
    rw [zero]
    rfl
  unfold UnpackedFloat.unpack
  dsimp only
  split
  · rename_i greatest
    rw [if_pos]
    · exact sign
    · have exponent := toNat_unpackExponent b
      rw [greatest] at exponent
      have exponent : 2047 = b.toNat / 2 ^ 52 % 2 ^ 11 := exponent
      rw [← BitVec.toNat_inj, toNat_unpackMantissa, BitVec.toNat_zero]
      omega
  split
  · split
    · exact sign
    · exact sign
  · exact sign

/-! ### Arithmetic without signs -/

theorem positive_roundWithAccuracy (m : Nat) (e : Int) (accuracy : Accuracy) :
    Positive (roundWithAccuracy Format.binary64 .positive m e accuracy) := by
  unfold roundWithAccuracy
  dsimp only
  split <;> rfl

theorem positive_ofNat (n : Nat) : Positive (UnpackedFloat.ofNat Format.binary64 n) := by
  unfold UnpackedFloat.ofNat UnpackedFloat.ofInt UnpackedFloat.normalize
  split
  · rename_i below
    have below : (n : Int) < 0 := Int.compare_eq_lt.mp below
    omega
  · rfl
  · exact positive_roundWithAccuracy _ _ _

/-- A finite number above zero. -/
def isAboveZero : UnpackedFloat → Bool
  | .finite .positive _ _ _ => true
  | _ => false

theorem positive_div {f g : UnpackedFloat} (h : Positive f) (above : isAboveZero g = true) :
    Positive (UnpackedFloat.div Format.binary64 f g) := by
  unfold isAboveZero at above
  split at above
  · cases f with
    | notANumber => exact h
    | infinity | zero =>
      obtain rfl : _ = Sign.positive := h
      rfl
    | finite =>
      obtain rfl : _ = Sign.positive := h
      exact positive_roundWithAccuracy _ _ _
  · cases above

theorem positive_ofScientific (m : Nat) (e : Int) :
    Positive (UnpackedFloat.ofScientific Format.binary64 m e) := by
  unfold UnpackedFloat.ofScientific
  split
  · rfl
  split
  · rfl
  split
  · rfl
  split
  · exact positive_roundWithAccuracy _ _ _
  · exact positive_roundWithAccuracy _ _ _

theorem isAboveZero_powerOfTen : ∀ x ∈ Float.exactlyRepresentablePowersOfTen,
    isAboveZero x.toModel.unpack = true := by
  rw [← Array.all_eq_true']
  decide +kernel

/-- Whatever digits a literal has, it denotes a number that is neither negative nor NaN. -/
theorem unsigned_ofDigits (whole fraction : List Char) :
    (Number.ofDigits whole fraction).Unsigned := by
  unfold Number.ofDigits Float.ofScientific
  split
  · have literal := positive_unpack (pack_le (positive_ofNat
      (Number.digitsValue (whole ++ fraction)).toUInt64.toNat))
    exact pack_le (positive_div literal (isAboveZero_powerOfTen _ (Array.getElem_mem _)))
  · exact pack_le (positive_ofScientific _ _)

end Lox
