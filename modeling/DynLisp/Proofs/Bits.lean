/-
  Proofs/Bits.lean --- the bits of a double.

  WHAT THIS FILE IS FOR.  A double is made of a pattern of 64 bits by taking the
  pattern apart and putting it together again, which settles on one pattern for
  all that is no number.  Any other pattern comes out as it was (`toBits_ofBits`), so
  a sign and a magnitude up to infinity's can be read off the double that they
  make.
-/
import DynLisp.Decimal.Binary
import Mathlib

set_option autoImplicit false

namespace DynLisp.Decimal

open Float.Model Float.Model.UnpackedFloat

/-! ## The parts of a pattern -/

section Parts

variable (b : BitVec Format.binary64.numBits)

theorem toNat_unpackExponent : (unpackExponent b).toNat = b.toNat / 2 ^ 52 % 2 ^ 11 := by
  simp [unpackExponent_def, BitVec.extractLsb'_toNat, Nat.shiftRight_eq_div_pow]

theorem toNat_unpackMantissa : (unpackMantissa b).toNat = b.toNat % 2 ^ 52 := by
  simp [unpackMantissa_def, BitVec.extractLsb'_toNat]

end Parts

/-- What is no number stands above infinity. -/
theorem isNaNBits_eq_false {b : BitVec Format.binary64.numBits}
    (h : b.toNat % 2 ^ 63 ≤ infinityMagnitude) : isNaNBits b = false := by
  have hinfinity : infinityMagnitude = 2047 * 2 ^ 52 := rfl
  have hexponent := toNat_unpackExponent b
  have hmantissa := toNat_unpackMantissa b
  rw [isNaNBits, decide_eq_false_iff_not]
  rintro ⟨hfull, hnonzero⟩
  have hfull' : b.toNat / 2 ^ 52 % 2 ^ 11 = 2047 := by
    rw [← hexponent, hfull]
    rfl
  have hnonzero' : b.toNat % 2 ^ 52 ≠ 0 := by
    rw [← hmantissa]
    exact fun hzero => hnonzero (BitVec.eq_of_toNat_eq hzero)
  omega

/-- A pattern that is not above infinity's comes out as it was. -/
theorem toBits_ofBits {b : UInt64} (h : b.toNat % 2 ^ 63 ≤ infinityMagnitude) :
    (Float.ofBits b).toBits = b := by
  have hpattern := @pack_unpack .binary64 b.toBitVec (by decide)
  rw [isNaNBits_eq_false h, if_neg Bool.false_ne_true] at hpattern
  exact congrArg UInt64.ofBitVec hpattern

/-! ## Signs and magnitudes -/

section OfMagnitude

variable (negative : Bool) {m : Nat} (h : m ≤ infinityMagnitude)
include h

theorem toNat_toBits_ofMagnitude :
    (ofMagnitude negative m).toBits.toNat = if negative then 2 ^ 63 + m else m := by
  have hinfinity : infinityMagnitude = 2047 * 2 ^ 52 := rfl
  have hlt : (if negative then 2 ^ 63 + m else m) < 2 ^ 64 := by split <;> omega
  have hnat : (UInt64.ofNat (if negative then 2 ^ 63 + m else m)).toNat =
      if negative then 2 ^ 63 + m else m := UInt64.toNat_ofNat_of_lt hlt
  have hbits : (ofMagnitude negative m).toBits =
      UInt64.ofNat (if negative then 2 ^ 63 + m else m) := by
    apply toBits_ofBits
    show (UInt64.ofNat (if negative then 2 ^ 63 + m else m)).toNat % 2 ^ 63 ≤ _
    rw [hnat]
    split <;> omega
  rw [hbits, hnat]

theorem magnitude_ofMagnitude : magnitude (ofMagnitude negative m) = m := by
  have hinfinity : infinityMagnitude = 2047 * 2 ^ 52 := rfl
  unfold magnitude
  rw [toNat_toBits_ofMagnitude negative h]
  show _ % 2 ^ 63 = m
  split <;> omega

theorem isNegative_ofMagnitude : isNegative (ofMagnitude negative m) = negative := by
  have hinfinity : infinityMagnitude = 2047 * 2 ^ 52 := rfl
  unfold isNegative
  rw [toNat_toBits_ofMagnitude negative h]
  show decide (2 ^ 63 ≤ _) = _
  cases negative with
  | true => exact decide_eq_true (Nat.le_add_right _ _)
  | false =>
    have hlt : m < 2 ^ 63 := by omega
    exact decide_eq_false (Nat.not_le.mpr hlt)

end OfMagnitude

end DynLisp.Decimal
