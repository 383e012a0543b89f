/-
  Proofs/Quotients.lean --- the quotient and the remainder of two integers.

  WHAT THIS FILE IS FOR.  Division and remainder are two operations, each with its own
  rule about signs, and a quotient can fail to fit in 64 bits.  Here they are shown to be
  the two halves of one division (`divide_fits_remainder`): the remainder is what the
  truncated quotient leaves, also where the quotient has wrapped around.

  THE ONE QUOTIENT THAT WRAPS.  The least integer divided by minus one is the only
  quotient out of range.  It comes out as the least integer again, and since
  multiplication wraps as well, nothing is left over.
-/
import DynLisp.Operator
import Mathlib.Algebra.Order.Group.Unbundled.Int

set_option autoImplicit false

namespace DynLisp

section Words

variable (a b : Int64)

/-- A quotient is the exact one, truncated toward zero, unless that is `2 ^ 63`. -/
theorem toInt_quotient :
    (a / b).toInt =
      if a = Int64.minValue ∧ b = -1 then -2 ^ 63 else a.toInt.tdiv b.toInt := by
  split
  · rename_i hleast
    rw [hleast.1, hleast.2]
    rfl
  · rename_i hleast
    rcases not_and_or.mp hleast with ha | hb
    · exact Int64.toInt_div_of_ne_left a b ha
    · exact Int64.toInt_div_of_ne_right a b hb

/-- The remainder is what the quotient leaves of the dividend.  It does not matter whether the
quotient wraps around: modulo `2 ^ 64` it is the exact one. -/
theorem quotient_mul_add_remainder : a / b * b + a % b = a := by
  apply Int64.toInt_inj.mp
  calc (a / b * b + a % b).toInt
      = ((((a.toInt.tdiv b.toInt).bmod (2 ^ 64) * b.toInt).bmod (2 ^ 64)) +
          a.toInt.tmod b.toInt).bmod (2 ^ 64) := by
        rw [Int64.toInt_add, Int64.toInt_mul, Int64.toInt_div, Int64.toInt_mod]
    _ = (a.toInt.tdiv b.toInt * b.toInt + a.toInt.tmod b.toInt).bmod (2 ^ 64) := by
        rw [Int.bmod_add_bmod, Int.add_comm, ← Int.add_bmod_bmod, Int.bmod_mul_bmod,
          Int.add_bmod_bmod, Int.add_comm]
    _ = a.toInt.bmod (2 ^ 64) := by rw [Int.tdiv_mul_add_tmod]
    _ = a.toInt := Int64.toInt_bmod a

theorem abs_remainder_lt (hb : b ≠ 0) : |(a % b).toInt| < |b.toInt| := by
  have hpos : 0 < b.toInt.natAbs := Int.natAbs_pos.mpr fun h => hb (Int64.toInt_inj.mp h)
  rw [Int64.toInt_mod, Int.abs_eq_natAbs, Int.abs_eq_natAbs, Int.natAbs_tmod]
  exact Int.ofNat_lt.mpr (Nat.mod_lt _ hpos)

theorem sign_remainder : a % b = 0 ∨ (a % b).toInt.sign = a.toInt.sign := by
  rw [← Int64.toInt_inj, Int64.toInt_mod, Int.sign_tmod]
  by_cases hdvd : b.toInt ∣ a.toInt
  · exact .inl (Int.tmod_eq_zero_of_dvd hdvd)
  · exact .inr (if_neg hdvd)

end Words

/-- Division and remainder of two integers, the divisor not zero, both have a result, and together
they are one division: the product of quotient and divisor, with the remainder added, is the
dividend.  The remainder is smaller than the divisor and has the sign of the dividend if it is not
zero.  The quotient is the exact one, truncated toward zero, but for the one that does not fit. -/
theorem divide_fits_remainder (a b : Int64) (hb : b ≠ 0) :
    let value (n : Int64) : Value := .number (.integer n)
    ∃ q r : Int64,
      Arithmetic.divide.onValues (value a) (value b) = .ok (.integer q) ∧
      Arithmetic.remainder.onValues (value a) (value b) = .ok (.integer r) ∧
      (do
        let product ← Arithmetic.multiply.onValues (value q) (value b)
        Arithmetic.add.onValues (.number product) (value r)) = .ok (.integer a) ∧
      |r.toInt| < |b.toInt| ∧ (r = 0 ∨ r.toInt.sign = a.toInt.sign) ∧
      q.toInt = if a = Int64.minValue ∧ b = -1 then -2 ^ 63 else a.toInt.tdiv b.toInt := by
  intro value
  have hsum : (do
      let product ← Arithmetic.multiply.onValues (value (a / b)) (value b)
      Arithmetic.add.onValues (.number product) (value (a % b))) =
        .ok (.integer (a / b * b + a % b)) := rfl
  rw [quotient_mul_add_remainder] at hsum
  exact ⟨a / b, a % b, if_neg hb, if_neg hb, hsum, abs_remainder_lt a b hb, sign_remainder a b,
    toInt_quotient a b⟩

/-- The quotient that does not fit. -/
theorem divide_fits_remainder_least :
    let value (n : Int64) : Value := .number (.integer n)
    (-1 : Int64) ≠ 0 ∧
      Arithmetic.divide.onValues (value Int64.minValue) (value (-1)) =
        .ok (.integer Int64.minValue) ∧
      ∃ r : Int64,
        Arithmetic.remainder.onValues (value Int64.minValue) (value (-1)) = .ok (.integer r) ∧
        |r.toInt| < 1 := by
  intro value
  have hne : (-1 : Int64) ≠ 0 := by decide
  obtain ⟨q, r, hquotient, hremainder, -, hlt, -, hq⟩ :=
    divide_fits_remainder Int64.minValue (-1) hne
  rw [if_pos ⟨rfl, rfl⟩] at hq
  obtain rfl : q = Int64.minValue := Int64.toInt_inj.mp hq
  exact ⟨hne, hquotient, r, hremainder, hlt⟩

end DynLisp
