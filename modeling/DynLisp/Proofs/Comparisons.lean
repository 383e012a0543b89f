/-
  Proofs/Comparisons.lean --- the order of integers, and their equality.

  WHAT THIS FILE IS FOR.  The order operators make doubles of their operands.  Equality
  looks at the integers themselves.  So the two can disagree, and this is where: on
  integers that are `Merged`, different ones that are rounded to one double.  For all
  others the operators are consistent with each other and with the order of the integers
  (`comparisons_consistent`).

  HOW FAR THAT GOES.  Integers of at most 53 binary digits are not rounded, and so are
  never merged.  The first pair that is has `2 ^ 53` for one of the two.
-/
import DynLisp.Operator
import DynLisp.Proofs.Doubles

set_option autoImplicit false

namespace DynLisp

open Decimal

/-! ## Integers that are one double -/

/-- Two different integers that are rounded to one and the same double. -/
def Merged (a b : Int64) : Prop := a ≠ b ∧ (Number.integer a).toFloat = (Number.integer b).toFloat

instance (a b : Int64) : Decidable (Merged a b) := inferInstanceAs (Decidable (_ ∧ _))

theorem standsFor_toFloat (n : Int64) :
    StandsFor (Number.integer n).toFloat.toModel.unpack (rounded n.toInt) := by
  have habs : n.toInt.natAbs < 2 ^ 64 := by
    have hle := n.le_toInt
    have hlt := n.toInt_lt
    omega
  apply standsFor_float_ofInt
  by_cases hzero : n.toInt.natAbs = 0
  · rw [hzero]
    decide
  · exact Nat.lt_trans ((Nat.log2_lt hzero).mpr habs) (by decide)

section Merging

variable (a b : Int64)

theorem merged_iff : Merged a b ↔ a ≠ b ∧ rounded a.toInt = rounded b.toInt :=
  and_congr_right fun _ => eq_iff_of_standsFor (standsFor_toFloat a) (standsFor_toFloat b)

theorem merged_comm : Merged a b ↔ Merged b a := and_congr ne_comm eq_comm

/-- Integers of at most 53 digits are never merged. -/
theorem not_merged_of_natAbs_le (ha : a.toInt.natAbs ≤ 2 ^ 53) (hb : b.toInt.natAbs ≤ 2 ^ 53) :
    ¬ Merged a b := by
  rw [merged_iff, rounded_eq_self ha, rounded_eq_self hb]
  exact fun h => h.1 (Int64.toInt_inj.mp h.2)

/-! ## What the operators say of integers -/

theorem less_iff :
    Comparison.less.holds (.integer a) (.integer b) = true ↔ a < b ∧ ¬ Merged a b := by
  have hholds : Comparison.less.holds (.integer a) (.integer b) = true ↔
      rounded a.toInt < rounded b.toInt :=
    decide_eq_true_iff.trans (lt_iff_of_standsFor (standsFor_toFloat a) (standsFor_toFloat b))
  rw [hholds, merged_iff, Int64.lt_iff_toInt_lt]
  constructor
  · intro hlt
    refine ⟨?_, fun hmerged => Int.ne_of_lt hlt hmerged.2⟩
    by_contra hge
    exact Int.not_lt.mpr (rounded_mono (Int.not_lt.mp hge)) hlt
  · rintro ⟨hlt, hnot⟩
    have hne : a ≠ b := fun heq => Int.ne_of_lt hlt (congrArg Int64.toInt heq)
    exact lt_of_le_of_ne (rounded_mono (Int.le_of_lt hlt)) fun heq => hnot ⟨hne, heq⟩

theorem lessOrEqual_iff :
    Comparison.lessOrEqual.holds (.integer a) (.integer b) = true ↔ a ≤ b ∨ Merged a b := by
  have hholds : Comparison.lessOrEqual.holds (.integer a) (.integer b) = true ↔
      rounded a.toInt ≤ rounded b.toInt :=
    decide_eq_true_iff.trans (le_iff_of_standsFor (standsFor_toFloat a) (standsFor_toFloat b))
  rw [hholds, merged_iff, Int64.le_iff_toInt_le]
  constructor
  · intro hle
    by_contra hnot
    obtain ⟨hgt, hnot⟩ := not_or.mp hnot
    have hne : a ≠ b := fun heq => hgt (Int.le_of_eq (congrArg Int64.toInt heq))
    have hge := rounded_mono (Int.le_of_lt (Int.not_le.mp hgt))
    exact hnot ⟨hne, Int.le_antisymm hle hge⟩
  · rintro (hle | ⟨-, heq⟩)
    · exact rounded_mono hle
    · exact Int.le_of_eq heq

theorem greater_iff :
    Comparison.greater.holds (.integer a) (.integer b) = true ↔ b < a ∧ ¬ Merged a b := by
  rw [merged_comm]
  exact less_iff b a

theorem greaterOrEqual_iff :
    Comparison.greaterOrEqual.holds (.integer a) (.integer b) = true ↔ b ≤ a ∨ Merged a b := by
  rw [merged_comm]
  exact lessOrEqual_iff b a

end Merging

/-- Of two integers the first is less, equal or greater, and only one of the three. -/
theorem toNat_order (a b : Int64) :
    (decide (a < b)).toNat + (decide (a = b)).toNat + (decide (b < a)).toNat = 1 := by
  rcases Int.lt_trichotomy a.toInt b.toInt with hlt | heq | hgt
  · have hlt : a < b := Int64.lt_iff_toInt_lt.mpr hlt
    rw [decide_eq_true hlt, decide_eq_false (Int64.ne_of_lt hlt),
      decide_eq_false (Int64.lt_asymm hlt)]
    rfl
  · obtain rfl := Int64.toInt_inj.mp heq
    rw [decide_eq_false Int64.lt_irrefl, decide_eq_true rfl]
    rfl
  · have hgt : b < a := Int64.lt_iff_toInt_lt.mpr hgt
    rw [decide_eq_true hgt, decide_eq_false (Int64.ne_of_lt hgt).symm,
      decide_eq_false (Int64.lt_asymm hgt)]
    rfl

/-- The order operators and equality, on two integers.  Of less, equal and greater exactly one
holds, and it is the one that holds of the integers, unless the two are merged.  Then none of the
three does.  Less or equal, and greater or equal, hold where one of the two that they are made of
does, and of merged integers both hold.  Integers of at most 53 digits are never merged. -/
theorem comparisons_consistent (a b : Int64) :
    let value (n : Int64) : Value := .number (.integer n)
    let equal := (value a).equalAtoms (value b)
    ∃ less greater lessOrEqual greaterOrEqual : Bool,
      (Comparison.less.onValues (value a) (value b) = .ok less ∧
        Comparison.greater.onValues (value a) (value b) = .ok greater ∧
        Comparison.lessOrEqual.onValues (value a) (value b) = .ok lessOrEqual ∧
        Comparison.greaterOrEqual.onValues (value a) (value b) = .ok greaterOrEqual) ∧
      less.toNat + equal.toNat + greater.toNat = (if Merged a b then 0 else 1) ∧
      (less = true ↔ a < b ∧ ¬ Merged a b) ∧ (equal = true ↔ a = b) ∧
      (greater = true ↔ b < a ∧ ¬ Merged a b) ∧
      (lessOrEqual = true ↔ less = true ∨ equal = true ∨ Merged a b) ∧
      (greaterOrEqual = true ↔ greater = true ∨ equal = true ∨ Merged a b) ∧
      (a.toInt.natAbs ≤ 2 ^ 53 → b.toInt.natAbs ≤ 2 ^ 53 → ¬ Merged a b) := by
  intro value equal
  have hless := less_iff a b
  have hgreater := greater_iff a b
  have hlessOrEqual := lessOrEqual_iff a b
  have hgreaterOrEqual := greaterOrEqual_iff a b
  have hequal : equal = true ↔ a = b := decide_eq_true_iff
  refine ⟨_, _, _, _, ⟨rfl, rfl, rfl, rfl⟩, ?_, hless, hequal, hgreater, ?_, ?_,
    not_merged_of_natAbs_le a b⟩
  · generalize Comparison.less.holds _ _ = less at hless ⊢
    generalize Comparison.greater.holds _ _ = greater at hgreater ⊢
    generalize equal = same at hequal ⊢
    by_cases hmerged : Merged a b
    · have hless : less = false := Bool.eq_false_iff.mpr fun h => (hless.mp h).2 hmerged
      have hsame : same = false := Bool.eq_false_iff.mpr (mt hequal.mp hmerged.1)
      have hgreater : greater = false := Bool.eq_false_iff.mpr fun h => (hgreater.mp h).2 hmerged
      rw [hless, hsame, hgreater, if_pos hmerged]
      rfl
    · have hless : less = decide (a < b) := by
        rw [Bool.eq_iff_iff, hless, decide_eq_true_iff]
        exact and_iff_left hmerged
      have hsame : same = decide (a = b) := by rw [Bool.eq_iff_iff, hequal, decide_eq_true_iff]
      have hgreater : greater = decide (b < a) := by
        rw [Bool.eq_iff_iff, hgreater, decide_eq_true_iff]
        exact and_iff_left hmerged
      rw [hless, hsame, hgreater, if_neg hmerged]
      exact toNat_order a b
  · rw [hlessOrEqual, hless, hequal, Int64.le_iff_lt_or_eq]
    by_cases hmerged : Merged a b <;> simp [hmerged]
  · rw [hgreaterOrEqual, hgreater, hequal, @eq_comm _ a, Int64.le_iff_lt_or_eq]
    by_cases hmerged : Merged a b <;> simp [hmerged]

/-- `2 ^ 53` and the integer after it are merged: neither is less than the other, they are not
equal, and each is less than or equal to the other. -/
theorem merged_two_pow_53 :
    let value (n : Int64) : Value := .number (.integer n)
    let a : Int64 := 9007199254740992
    let b : Int64 := 9007199254740993
    Comparison.less.onValues (value a) (value b) = .ok false ∧
      (value a).equalAtoms (value b) = false ∧
      Comparison.greater.onValues (value a) (value b) = .ok false ∧
      Comparison.lessOrEqual.onValues (value a) (value b) = .ok true ∧
      Comparison.greaterOrEqual.onValues (value a) (value b) = .ok true := by
  decide +kernel

end DynLisp
