/-
  Proofs/Doubles.lean --- integers as doubles, and how those compare.

  WHAT THIS FILE IS FOR.  A double that an integer has become `StandsFor` the integer
  rounded to 53 digits.  All conversions go through the model of doubles, the fast one of
  small numbers by way of a product with one (`standsFor_float_ofInt`).  Two such doubles
  compare like the integers that they stand for, and are the same if those are.

  ZERO.  No integer becomes the negative zero, so that a double which stands for an
  integer is given by it (`StandsFor.unique`).
-/
import DynLisp.Proofs.Rounding
import Mathlib

set_option autoImplicit false

namespace DynLisp.Decimal

open Float.Model Float.Model.UnpackedFloat

/-! ## Packing -/

section Packing

variable (sign : Sign) {m k : Nat} (hpos : 0 < m) (hm : m.log2 = 52) (hk : k < 1024)
include hm hk

theorem pack_finite :
    UnpackedFloat.pack .binary64 (.finite sign m (k - 52) hpos) =
      packComponents .binary64 sign (BitVec.ofNat 11 (k + 1023)) (BitVec.ofNat 52 m) := by
  have hexponent : ((k : Int) - 52 + Format.binary64.exponentBias +
      Format.binary64.mantissaBitsWithoutImplicit).toNat = k + 1023 := by
    have hbias : (Format.binary64.exponentBias : Int) = 1023 := rfl
    have hbits : (Format.binary64.mantissaBitsWithoutImplicit : Int) = 52 := rfl
    rw [hbias, hbits]
    omega
  have hfinite : ¬ 2 ^ 11 ≤ k + 1023 + 1 := by omega
  have hnormal : m.log2 + 1 = Format.binary64.mantissaBits := by rw [hm]; rfl
  rw [UnpackedFloat.pack, hexponent]
  exact (if_neg hfinite).trans (if_pos hnormal)

/-- A double with all its digits is not changed by being packed. -/
theorem unpack_pack_finite :
    UnpackedFloat.unpack .binary64 (UnpackedFloat.pack .binary64 (.finite sign m (k - 52) hpos)) =
      .finite sign m (k - 52) hpos := by
  obtain ⟨hle, hlt⟩ := (Nat.log2_eq_iff (Nat.ne_of_gt hpos)).mp hm
  have hexponent : (BitVec.ofNat 11 (k + 1023)).toNat = k + 1023 := by
    rw [BitVec.toNat_ofNat]
    omega
  have hmantissa : (1#1 ++ BitVec.ofNat 52 m).toNat = m := by
    rw [BitVec.toNat_append, ← Nat.shiftLeft_add_eq_or_of_lt (BitVec.isLt _), BitVec.toNat_ofNat]
    show 2 ^ 52 + m % 2 ^ 52 = m
    omega
  have hfull : BitVec.ofNat 11 (k + 1023) ≠ -1#11 := by
    intro heq
    have heq := congrArg BitVec.toNat heq
    rw [hexponent] at heq
    have hone : (-1#11).toNat = 2047 := rfl
    omega
  have hzero : BitVec.ofNat 11 (k + 1023) ≠ 0#11 := by
    intro heq
    have heq := congrArg BitVec.toNat heq
    rw [hexponent] at heq
    have hone : (0#11).toNat = 0 := rfl
    omega
  rw [pack_finite sign hpos hm hk, UnpackedFloat.unpack]
  simp only [unpackExponent_packComponents, unpackMantissa_packComponents,
    unpackSign_packComponents, Sign.ofBitVec_toBitVec]
  rw [if_neg hfull, if_neg hzero, UnpackedFloat.finite.injEq, hexponent]
  refine ⟨rfl, hmantissa, ?_⟩
  have hbias : (Format.binary64.exponentBias : Int) = 1023 := rfl
  have hbits : (Format.binary64.mantissaBitsWithoutImplicit : Int) = 52 := rfl
  rw [hbias, hbits]
  omega

end Packing

/-! ## Whole numbers among the doubles -/

/-- The double is zero, or it has all its 53 digits and is a whole number.  No double has an exponent
of 1024 or more. -/
inductive StandsFor : UnpackedFloat → Int → Prop where
  | zero : StandsFor (.zero .positive) 0
  | finite (sign : Sign) {m k : Nat} {v : Int} (hpos : 0 < m) (hm : m.log2 = 52) (hk : k < 1024)
      (hv : v * 2 ^ 52 = sign.apply (m * 2 ^ k : Nat)) :
    StandsFor (.finite sign m (k - 52) hpos) v

/-- Of two doubles that have all their digits, the exponents decide first. -/
theorem compare_digits {m m' : Nat} (hm : m.log2 = 52) (hm' : m'.log2 = 52) (k k' : Nat) :
    (compare ((k : Int) - 52) (k' - 52)).then (compare m m') =
      compare (m * 2 ^ k) (m' * 2 ^ k') := by
  have hlt : ∀ {m m' k k' : Nat}, m.log2 = 52 → m'.log2 = 52 → k < k' →
      m * 2 ^ k < m' * 2 ^ k' := by
    intro m m' k k' hm hm' hk
    have hne : m' ≠ 0 := by
      rintro rfl
      rw [Nat.log2_zero] at hm'
      omega
    calc m * 2 ^ k < 2 ^ (m.log2 + 1) * 2 ^ k :=
          Nat.mul_lt_mul_of_pos_right Nat.lt_log2_self (Nat.two_pow_pos k)
      _ = 2 ^ m'.log2 * 2 ^ (k + 1) := by rw [hm, hm', Nat.pow_succ', Nat.pow_succ']; ring
      _ ≤ m' * 2 ^ k' := Nat.mul_le_mul (Nat.log2_self_le hne) (Nat.pow_le_pow_right (by decide) hk)
  rcases Nat.lt_trichotomy k k' with hk | rfl | hk
  · have hexponent : (k : Int) - 52 < k' - 52 := by omega
    rw [compare_lt_iff_lt.mpr hexponent, compare_lt_iff_lt.mpr (hlt hm hm' hk)]
    rfl
  · have hmono := strictMono_mul_right_of_pos (Nat.two_pow_pos k)
    rw [compare_eq_iff_eq.mpr rfl, Ordering.eq_then]
    simpa only [cmp_eq_compare] using (hmono.cmp_map_eq m m').symm
  · have hexponent : (k' : Int) - 52 < k - 52 := by omega
    rw [compare_gt_iff_gt.mpr hexponent, compare_gt_iff_gt.mpr (hlt hm' hm hk)]
    rfl

theorem natCast_mul_two_pow_pos {m : Nat} (hpos : 0 < m) (k : Nat) :
    (0 : Int) < (m * 2 ^ k : Nat) :=
  Int.natCast_pos.mpr (Nat.mul_pos hpos (Nat.two_pow_pos k))

theorem compare_cast (x y : Nat) : compare (x : Int) y = compare x y := by
  simpa only [cmp_eq_compare] using Int.natCast_strictMono.cmp_map_eq x y

theorem compare_neg_cast (x y : Nat) : compare (-(x : Int)) (-(y : Int)) = (compare x y).swap := by
  have hanti : StrictAnti fun n : Nat => -(n : Int) :=
    fun m n hlt => Int.neg_lt_neg (Int.ofNat_lt.mpr hlt)
  have hswap := cmp_swap x y
  rw [cmp_eq_compare, cmp_eq_compare] at hswap
  rw [hswap]
  simpa only [cmp_eq_compare] using hanti.cmp_map_eq x y

theorem compare_finite {sign sign' : Sign} {m m' k k' : Nat} (hpos : 0 < m) (hpos' : 0 < m')
    (hm : m.log2 = 52) (hm' : m'.log2 = 52) :
    UnpackedFloat.compare (.finite sign m (k - 52) hpos) (.finite sign' m' (k' - 52) hpos') =
      some (compare (sign.apply (m * 2 ^ k : Nat)) (sign'.apply (m' * 2 ^ k' : Nat))) := by
  have hdigits := compare_digits hm hm' k k'
  have hp : (0 : Int) < (m * 2 ^ k : Nat) := natCast_mul_two_pow_pos hpos k
  have hp' : (0 : Int) < (m' * 2 ^ k' : Nat) := natCast_mul_two_pow_pos hpos' k'
  cases sign <;> cases sign' <;> refine congrArg some ?_
  case negative.negative =>
    rw [hdigits]
    exact (compare_neg_cast _ _).symm
  case negative.positive =>
    exact (compare_lt_iff_lt.mpr (Int.lt_trans (Int.neg_neg_of_pos hp) hp')).symm
  case positive.negative =>
    exact (compare_gt_iff_gt.mpr (Int.lt_trans (Int.neg_neg_of_pos hp') hp)).symm
  case positive.positive =>
    rw [hdigits]
    exact (compare_cast _ _).symm

namespace StandsFor

variable {f g : UnpackedFloat} {v w : Int}

theorem neg (h : StandsFor f v) (hv : v ≠ 0) : StandsFor f.neg (-v) := by
  cases h with
  | zero => exact absurd rfl hv
  | finite sign hpos hm hk hvalue =>
    refine .finite (-sign) hpos hm hk ?_
    rw [Int.neg_mul, hvalue]
    cases sign with
    | negative => exact Int.neg_neg _
    | positive => rfl

theorem unpack_pack (h : StandsFor f v) : (Float.Model.pack f).unpack = f := by
  cases h with
  | zero => exact unpack_packedZero
  | finite sign hpos hm hk => exact unpack_pack_finite sign hpos hm hk

/-- Doubles compare like the whole numbers that they are. -/
theorem compare_eq (h : StandsFor f v) (h' : StandsFor g w) :
    UnpackedFloat.compare f g = some (compare v w) := by
  have hscale : compare (v * 2 ^ 52) (w * 2 ^ 52) = compare v w := by
    have hmono := strictMono_mul_right_of_pos (by decide : (0 : Int) < 2 ^ 52)
    simpa only [cmp_eq_compare] using hmono.cmp_map_eq v w
  rw [← hscale]
  cases h with
  | zero =>
    cases h' with
    | zero => rfl
    | @finite sign _ k _ hpos _ _ hvalue =>
      have hp := natCast_mul_two_pow_pos hpos k
      rw [hvalue]
      cases sign with
      | negative => exact congrArg some (compare_gt_iff_gt.mpr (Int.neg_neg_of_pos hp)).symm
      | positive => exact congrArg some (compare_lt_iff_lt.mpr hp).symm
  | @finite sign m k _ hpos hm _ hvalue =>
    rw [hvalue]
    cases h' with
    | zero =>
      have hp := natCast_mul_two_pow_pos hpos k
      cases sign with
      | negative => exact congrArg some (compare_lt_iff_lt.mpr (Int.neg_neg_of_pos hp)).symm
      | positive => exact congrArg some (compare_gt_iff_gt.mpr hp).symm
    | finite sign' hpos' hm' _ hvalue' =>
      rw [hvalue']
      exact compare_finite hpos hpos' hm hm'

/-- A whole number is at most one double. -/
theorem unique (h : StandsFor f v) (h' : StandsFor g v) : f = g := by
  have hbeq : UnpackedFloat.beq f g = true := by
    rw [UnpackedFloat.beq, h.compare_eq h', compare_eq_iff_eq.mpr rfl]
    rfl
  obtain ⟨-, -, heq | ⟨-, rfl⟩ | ⟨rfl, -⟩⟩ := (beq_iff_ne_notANumber_and_eq f g).mp hbeq
  · exact heq
  · cases h'
  · cases h

end StandsFor

/-- A natural number with digits added at the end, rounded in the model of doubles. -/
theorem standsFor_round {n : Nat} (j places : Nat) (hn : n.log2 + j = 52 + places) (hpos : 0 < n)
    (hlt : n.log2 < 1023) :
    StandsFor (roundWithAccuracy .binary64 .positive (n * 2 ^ j) (-j) .exact) (roundedNat n) := by
  have hlog : (n * 2 ^ j).log2 = 52 + places := (log2_mul_two_pow hpos j).trans hn
  obtain ⟨m, carry, hm, hround, hdigits, hcarry, hvalue⟩ :=
    roundWithAccuracy_exact .positive hlog (e := -j) (by omega)
  have hexponent : (-j : Int) + places + carry = (n.log2 + carry : Nat) - 52 := by omega
  rw [hround]
  simp only [hexponent]
  refine .finite .positive hm hdigits (by omega) ?_
  show _ = ((m * 2 ^ (n.log2 + carry) : Nat) : Int)
  have hnat : roundedNat n * 2 ^ 52 = m * 2 ^ (n.log2 + carry) := by
    rw [← roundHalfEven_scaled hn, ← hvalue, Nat.add_comm, Nat.pow_add, Nat.mul_assoc]
  exact_mod_cast hnat

/-! ## Integers as doubles -/

/-- The conversion in the model of doubles. -/
theorem standsFor_ofNat {n : Nat} (hpos : 0 < n) (hlt : n.log2 < 1023) :
    StandsFor (UnpackedFloat.ofNat .binary64 n) (roundedNat n) := by
  have htarget : Format.binary64.targetExponent (totalExponent n 0) = (n.log2 : Int) - 52 := by
    rw [targetExponent_totalExponent]
    omega
  have hgt : compare (n : Int) 0 = .gt := compare_gt_iff_gt.mpr (Int.natCast_pos.mpr hpos)
  have hshift : (0 - ((n.log2 : Int) - 52)).toNat = 52 - n.log2 := by omega
  have hround := standsFor_round (52 - n.log2) (n.log2 - 52) (by omega) hpos hlt
  rw [UnpackedFloat.ofNat, UnpackedFloat.ofInt, UnpackedFloat.normalize, hgt]
  simp only [Int.toNat_natCast]
  rw [UnpackedFloat.round, htarget, decreaseExponent, hshift, Nat.shiftLeft_eq]
  have hexponent : (0 : Int) - (52 - n.log2 : Nat) = -(52 - n.log2 : Nat) := Int.zero_sub _
  simp only [hexponent]
  exact hround

/-- The conversion of a decimal, where that has no places. -/
theorem standsFor_ofScientific {n : Nat} (hpos : 0 < n) (hlt : n.log2 < 1023) :
    StandsFor (UnpackedFloat.ofScientific .binary64 n 0) (roundedNat n) := by
  have hround : UnpackedFloat.ofScientific .binary64 n 0 =
      roundWithAccuracy .binary64 .positive (n * 2 ^ 53) (-(53 : Nat)) .exact := by
    have hne : n ≠ 0 := Nat.ne_of_gt hpos
    have hsmall : ¬ (0 : Int) > 2 ^ 11 := by decide
    have hlarge : ¬ (0 : Int) < -((2 ^ 11 : Int) + n.log2) := by omega
    rw [UnpackedFloat.ofScientific, dif_neg hne, if_neg hsmall, if_neg hlarge,
      if_pos (Int.le_refl 0), ← Nat.shiftLeft_eq, ← Nat.mul_one (n <<< 53)]
    rfl
  rw [hround]
  exact standsFor_round 53 (n.log2 + 1) (by omega) hpos hlt

/-- One in the model of doubles. -/
def one : UnpackedFloat := .finite .positive (2 ^ 52) (-52) (Nat.two_pow_pos 52)

theorem unpack_one : (Float.ofBits 0x3FF0000000000000).toModel.unpack = one := rfl

/-- The product with one is rounded to what it was. -/
theorem StandsFor.mul_one {f : UnpackedFloat} {v : Int} (h : StandsFor f v) :
    StandsFor (UnpackedFloat.mul .binary64 f one) v := by
  cases h with
  | zero => exact .zero
  | @finite sign m k _ hpos hm hk hvalue =>
    have hlog : (m * 2 ^ 52).log2 = 52 + 52 := by rw [log2_mul_two_pow hpos, hm]
    have hsign : sign * .positive = sign := by cases sign <;> rfl
    obtain ⟨m', carry, hpos', hround, hdigits, hcarry, hproduct⟩ :=
      roundWithAccuracy_exact sign (e := (k : Int) - 52 + -52) hlog (by omega)
    have hsame : m' * 2 ^ carry = m :=
      hproduct.trans (roundHalfEven_mul_self m (Nat.two_pow_pos 52))
    obtain rfl : carry = 0 := by
      have hcarry' := log2_mul_two_pow hpos' carry
      rw [hsame, hm, hdigits] at hcarry'
      omega
    obtain rfl : m' = m := by rwa [Nat.pow_zero, Nat.mul_one] at hsame
    have hexponent : (k : Int) - 52 + -52 + (52 : Nat) + (0 : Nat) = k - 52 := by omega
    rw [one, UnpackedFloat.mul, hsign, hround]
    simp only [hexponent]
    exact .finite sign hpos' hm hk hvalue

/-- A natural number as a double is the number rounded. -/
theorem standsFor_float_ofNat {n : Nat} (hlt : n.log2 < 1023) :
    StandsFor (Float.ofNat n).toModel.unpack (roundedNat n) := by
  rcases Nat.eq_zero_or_pos n with rfl | hpos
  · exact .zero
  -- A number that has no more digits than fit is converted as a word, and then multiplied with one.
  by_cases hfast : n < 2 ^ 53
  · have hof : Float.ofNat n = n.toUInt64.toFloat * Float.ofBits 0x3FF0000000000000 :=
      dif_pos ⟨hfast, Nat.zero_le 22⟩
    have hn : n.toUInt64.toNat = n := UInt64.toNat_ofNat_of_lt (Nat.lt_trans hfast (by decide))
    have hstands := standsFor_ofNat hpos hlt
    have hunpack : n.toUInt64.toFloat.toModel.unpack = UnpackedFloat.ofNat .binary64 n := by
      show (Float.Model.pack (UnpackedFloat.ofNat .binary64 n.toUInt64.toNat)).unpack = _
      rw [hn, hstands.unpack_pack]
    rw [hof]
    show StandsFor (Float.Model.pack (UnpackedFloat.mul .binary64 n.toUInt64.toFloat.toModel.unpack
      (Float.ofBits 0x3FF0000000000000).toModel.unpack)).unpack _
    rw [hunpack, unpack_one, hstands.mul_one.unpack_pack]
    exact hstands.mul_one
  · have hof : Float.ofNat n = Float.ofModel (Float.Model.ofScientific n 0) :=
      dif_neg fun h => hfast h.1
    have hstands := standsFor_ofScientific hpos hlt
    rw [hof]
    show StandsFor (Float.Model.pack (UnpackedFloat.ofScientific .binary64 n 0)).unpack _
    rw [hstands.unpack_pack]
    exact hstands

/-- An integer as a double is the integer rounded. -/
theorem standsFor_float_ofInt {n : Int} (hlt : n.natAbs.log2 < 1023) :
    StandsFor (Float.ofInt n).toModel.unpack (rounded n) := by
  cases n with
  | ofNat n => exact standsFor_float_ofNat hlt
  | negSucc n =>
    have hstands : StandsFor (Float.ofNat (n + 1)).toModel.unpack (roundedNat (n + 1)) :=
      standsFor_float_ofNat hlt
    have hne : (roundedNat (n + 1) : Int) ≠ 0 :=
      Int.natCast_ne_zero.mpr (Nat.ne_of_gt (roundedNat_pos (Nat.succ_pos n)))
    show StandsFor (Float.Model.pack (Float.ofNat (n + 1)).toModel.unpack.neg).unpack _
    rw [(hstands.neg hne).unpack_pack]
    exact hstands.neg hne

/-! ## How doubles compare -/

section Order

variable {x y : Float} {v w : Int} (h : StandsFor x.toModel.unpack v)
  (h' : StandsFor y.toModel.unpack w)
include h h'

theorem lt_iff_of_standsFor : x < y ↔ v < w := by
  show decide (UnpackedFloat.lt x.toModel.unpack y.toModel.unpack = true) = true ↔ v < w
  rw [decide_eq_true_iff, UnpackedFloat.lt, h.compare_eq h', beq_iff_eq, Option.some.injEq,
    compare_lt_iff_lt]

theorem le_iff_of_standsFor : x ≤ y ↔ v ≤ w := by
  show decide (UnpackedFloat.le x.toModel.unpack y.toModel.unpack = true) = true ↔ v ≤ w
  rw [decide_eq_true_iff, UnpackedFloat.le, h.compare_eq h', Option.any_some, Std.isLE_compare]

theorem eq_iff_of_standsFor : x = y ↔ v = w := by
  constructor
  · rintro rfl
    have hsame := (h.compare_eq h).symm.trans (h.compare_eq h')
    rw [compare_eq_iff_eq.mpr rfl, Option.some.injEq] at hsame
    exact compare_eq_iff_eq.mp hsame.symm
  · rintro rfl
    have hunpack := h.unique h'
    have hbits := (unpack_inj_of_valid x.toModel.valid y.toModel.valid).mp hunpack
    exact Float.toBits_inj.mp (UInt64.toBitVec_inj.mp hbits)

end Order

end DynLisp.Decimal
