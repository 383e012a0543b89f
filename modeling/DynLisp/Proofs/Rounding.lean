/-
  Proofs/Rounding.lean --- rounding to the 53 digits of a double.

  WHAT THIS FILE IS FOR.  An integer that is made a double keeps its first 53 binary
  digits, and what is cut off decides whether they are rounded up.  Here that is said in
  whole numbers: `rounded` is the integer that a double has become.  It grows with the
  integer (`rounded_mono`) and is the integer itself if that has no more digits than fit
  (`rounded_eq_self`).

  THE MODEL OF DOUBLES.  A mantissa is there shifted to the right place by place, and two
  bits remember what is lost.  This comes to rounding a quotient by a power of two
  (`Shifted.roundedMantissa_eq`), where a half goes to the even neighbour.
-/
import DynLisp.Proofs.Nearest
import Mathlib.Data.Nat.Log

set_option autoImplicit false

namespace DynLisp.Decimal

open Float.Model Float.Model.UnpackedFloat

/-! ## Shifting -/

/-- A mantissa shifted to the right by some places, with what the two bits kept of the digits
shifted out have to say about the remainder. -/
structure Shifted (num places : Nat) (em : ExtendedMantissa) : Prop where
  mantissa : em.mantissa = num / 2 ^ places
  roundBit : em.roundBit = true ↔ 2 ^ places ≤ 2 * (num % 2 ^ places)
  stickyBit : em.stickyBit = true ↔
    num % 2 ^ places ≠ 0 ∧ 2 * (num % 2 ^ places) ≠ 2 ^ places

theorem shifted_zero (num : Nat) : Shifted num 0 ⟨num, false, false⟩ := by
  constructor <;> simp [Nat.mod_one]

theorem Shifted.shiftRightOne {num places : Nat} {em : ExtendedMantissa}
    (h : Shifted num places em) : Shifted num (places + 1) em.shiftRightOne := by
  have hrem : num % 2 ^ (places + 1) =
      num % 2 ^ places + 2 ^ places * (num / 2 ^ places % 2) := Nat.mod_mul
  have hlt : num % 2 ^ places < 2 ^ places := Nat.mod_lt _ (Nat.two_pow_pos _)
  have hpow : 2 ^ (places + 1) = 2 * 2 ^ places := Nat.pow_succ'
  have hbit : num / 2 ^ places % 2 = 0 ∨ num / 2 ^ places % 2 = 1 := Nat.mod_two_eq_zero_or_one _
  obtain ⟨hmantissa, hround, hsticky⟩ := h
  constructor
  · rw [ExtendedMantissa.shiftRightOne, hmantissa, Nat.div_div_eq_div_mul, ← Nat.pow_succ]
  · have hodd : em.shiftRightOne.roundBit = true ↔ num / 2 ^ places % 2 = 1 := by
      simp [ExtendedMantissa.shiftRightOne, hmantissa]
    rw [hodd, hrem, hpow]
    rcases hbit with hbit | hbit <;> rw [hbit] <;> omega
  · have hlost : em.shiftRightOne.stickyBit = true ↔ num % 2 ^ places ≠ 0 := by
      rw [ExtendedMantissa.shiftRightOne, Bool.or_eq_true, hround, hsticky]
      omega
    rw [hlost, hrem, hpow]
    rcases hbit with hbit | hbit <;> rw [hbit] <;> omega

theorem shifted_shiftRight (num places : Nat) :
    Shifted num places ((⟨num, false, false⟩ : ExtendedMantissa) >>> places) := by
  induction places with
  | zero => exact shifted_zero num
  | succ places ih => exact ih.shiftRightOne

/-- The two bits are enough to round to the nearest, a half to the even neighbour. -/
theorem Shifted.roundedMantissa_eq {num places : Nat} {em : ExtendedMantissa}
    (h : Shifted num places em) : em.roundedMantissa = roundHalfEven num (2 ^ places) := by
  obtain ⟨mantissa, roundBit, stickyBit⟩ := em
  obtain ⟨hmantissa, hround, hsticky⟩ := h
  dsimp only at hmantissa hround hsticky
  unfold roundHalfEven
  dsimp only
  rw [← hmantissa]
  cases roundBit with
  | false =>
    have hlt : 2 * (num % 2 ^ places) < 2 ^ places := by simpa using hround
    rw [if_pos hlt]
    cases stickyBit <;> rfl
  | true =>
    have hge : 2 ^ places ≤ 2 * (num % 2 ^ places) := hround.mp rfl
    rw [if_neg (Nat.not_lt.mpr hge)]
    have hpos : 0 < 2 ^ places := Nat.two_pow_pos places
    cases stickyBit with
    | false =>
      have heq : ¬ 2 ^ places < 2 * (num % 2 ^ places) := by
        have hnot := mt hsticky.mpr Bool.false_ne_true
        omega
      rw [if_neg heq]
      rfl
    | true =>
      have hlt : 2 ^ places < 2 * (num % 2 ^ places) := by
        have hne := (hsticky.mp rfl).2
        omega
      rw [if_pos hlt]
      rfl

/-! ## Rounding in the model of doubles -/

/-- The exponent with which a mantissa has 53 digits, unless it is too small for that. -/
theorem targetExponent_totalExponent (num : Nat) (e : Int) :
    Format.binary64.targetExponent (totalExponent num e) = max (num.log2 + e - 52) (-1074) := by
  have hbits : (Format.binary64.mantissaBits : Int) = 53 := rfl
  have hmin : Format.binary64.minExponent = -1074 := rfl
  rw [Format.targetExponent, totalExponent, hbits, hmin]
  omega

/-- An exact mantissa with `places` digits more than fit is shifted by that much. -/
theorem shiftToTargetExponent_exact {num places : Nat} {e : Int} (hnum : num.log2 = 52 + places)
    (he : -1074 ≤ e + places) :
    shiftToTargetExponent .binary64 num e .exact =
      ((⟨num, false, false⟩ : ExtendedMantissa) >>> places, e + places) := by
  have htarget : Format.binary64.targetExponent (totalExponent num e) = e + places := by
    rw [targetExponent_totalExponent, hnum]
    omega
  have hplaces : (e + places - e).toNat = places := by omega
  rw [shiftToTargetExponent, htarget, shiftToExponent, hplaces]
  rfl

theorem log2_eq_of_le_of_lt {n k : Nat} (hle : 2 ^ k ≤ n) (hlt : n < 2 ^ (k + 1)) :
    n.log2 = k := by
  have hne : n ≠ 0 := Nat.ne_of_gt (Nat.lt_of_lt_of_le (Nat.two_pow_pos k) hle)
  exact (Nat.log2_eq_iff hne).mpr ⟨hle, hlt⟩

theorem log2_mul_two_pow {n : Nat} (hpos : 0 < n) (k : Nat) :
    (n * 2 ^ k).log2 = n.log2 + k := by
  apply log2_eq_of_le_of_lt
  · rw [Nat.pow_add]
    exact Nat.mul_le_mul_right _ (Nat.log2_self_le (Nat.ne_of_gt hpos))
  · rw [Nat.add_right_comm, Nat.pow_add]
    exact Nat.mul_lt_mul_of_pos_right Nat.lt_log2_self (Nat.two_pow_pos k)

/-- Rounding an exact mantissa.  If the digits carry over, the exponent is one more. -/
theorem roundWithAccuracy_exact (sign : Sign) {num places : Nat} {e : Int}
    (hnum : num.log2 = 52 + places) (he : -1074 ≤ e + places) :
    ∃ (m carry : Nat) (hpos : 0 < m),
      roundWithAccuracy .binary64 sign num e .exact = .finite sign m (e + places + carry) hpos ∧
        m.log2 = 52 ∧ carry ≤ 1 ∧ m * 2 ^ carry = roundHalfEven num (2 ^ places) := by
  have hround := (shifted_shiftRight num places).roundedMantissa_eq
  have hnearest := nearest_roundHalfEven num (Nat.two_pow_pos places)
  have hne : num ≠ 0 := by
    rintro rfl
    rw [Nat.log2_zero] at hnum
    omega
  have hle : 2 ^ 52 ≤ roundHalfEven num (2 ^ places) := by
    apply hnearest.le_of_le (Nat.two_pow_pos places)
    rw [← Nat.pow_add, ← hnum]
    exact Nat.log2_self_le hne
  have hge : roundHalfEven num (2 ^ places) ≤ 2 ^ 53 := by
    apply hnearest.le_of_lt
    rw [← Nat.pow_add, Nat.add_right_comm 52 1 places, ← hnum]
    exact Nat.lt_log2_self
  unfold roundWithAccuracy
  rw [shiftToTargetExponent_exact hnum he]
  dsimp only
  rw [hround]
  generalize roundHalfEven num (2 ^ places) = r at hle hge
  -- The second shift is by one place if rounding up has made one digit too many.
  rcases Nat.lt_or_eq_of_le hge with hlt | rfl
  · have hlog : r.log2 = 52 + 0 := log2_eq_of_le_of_lt hle hlt
    rw [shiftToTargetExponent_exact hlog (by omega)]
    have hpos : 0 < r := by omega
    refine ⟨r, 0, hpos, ?_, hlog, Nat.zero_le _, Nat.mul_one r⟩
    exact dif_neg (Nat.ne_of_gt hpos)
  · have hlog : (2 ^ 53).log2 = 52 + 1 := Nat.log2_two_pow
    rw [shiftToTargetExponent_exact hlog (by omega)]
    exact ⟨2 ^ 52, 1, Nat.two_pow_pos 52, rfl, Nat.log2_two_pow, Nat.le_refl 1, rfl⟩

/-! ## Integers rounded to 53 digits -/

/-- A natural number, rounded to 53 binary digits if it has more. -/
def roundedNat (n : Nat) : Nat :=
  let doublings := n.log2 - 52
  roundHalfEven n (2 ^ doublings) * 2 ^ doublings

/-- An integer, rounded to 53 binary digits if it has more. -/
def rounded : Int → Int
  | .ofNat n => roundedNat n
  | .negSucc n => -(roundedNat (n + 1) : Int)

theorem roundHalfEven_mul_self (n : Nat) {den : Nat} (hden : 0 < den) :
    roundHalfEven (n * den) den = n := by
  have hrem : n * den % den = 0 := Nat.mul_mod_left n den
  have hquot : n * den / den = n := Nat.mul_div_cancel n hden
  unfold roundHalfEven
  rw [hrem, hquot]
  exact if_pos hden

theorem roundHalfEven_one (n : Nat) : roundHalfEven n 1 = n := by
  simpa using roundHalfEven_mul_self n Nat.one_pos

theorem roundHalfEven_mul_mul (num den : Nat) {c : Nat} (hc : 0 < c) :
    roundHalfEven (num * c) (den * c) = roundHalfEven num den := by
  have hscale : ∀ a b : Nat, a * c < b * c ↔ a < b := fun a b => Nat.mul_lt_mul_right hc
  unfold roundHalfEven
  simp only [Nat.mul_div_mul_right _ _ hc, Nat.mul_mod_mul_right, ← Nat.mul_assoc, hscale]

theorem roundHalfEven_mono {num num' : Nat} (h : num ≤ num') {den : Nat} (hden : 0 < den) :
    roundHalfEven num den ≤ roundHalfEven num' den := by
  have hnear := nearest_roundHalfEven num hden
  have hnear' := nearest_roundHalfEven num' hden
  by_contra hlt
  have hstep : (roundHalfEven num' den + 1) * den ≤ roundHalfEven num den * den :=
    Nat.mul_le_mul_right den (Nat.lt_of_not_le hlt)
  rw [Nat.succ_mul] at hstep
  have hdist := hnear.dist_le
  have hdist' := hnear'.dist_le
  -- Only one number is half a step from both, and it is rounded to one of them.
  have heq : num = num' := by
    unfold Nat.dist at hdist hdist'
    omega
  rw [heq] at hlt
  exact hlt (Nat.le_refl _)

theorem roundedNat_eq_self {n : Nat} (h : n ≤ 2 ^ 53) : roundedNat n = n := by
  rcases Nat.lt_or_eq_of_le h with hlt | rfl
  · have hzero : n.log2 - 52 = 0 := by
      rcases Nat.eq_zero_or_pos n with rfl | hpos
      · rfl
      · have hlog : n.log2 < 53 := (Nat.log2_lt (Nat.ne_of_gt hpos)).mpr hlt
        omega
    rw [roundedNat, hzero, Nat.pow_zero, roundHalfEven_one, Nat.mul_one]
  · decide

theorem roundedNat_mono {n n' : Nat} (h : n ≤ n') : roundedNat n ≤ roundedNat n' := by
  have hpow : ∀ n : Nat, 0 < 2 ^ (n.log2 - 52) := fun n => Nat.two_pow_pos _
  have hlog : n.log2 ≤ n'.log2 := by
    rw [Nat.log2_eq_log_two, Nat.log2_eq_log_two]
    exact Nat.log_mono_right h
  rcases Nat.eq_or_lt_of_le (Nat.sub_le_sub_right hlog 52) with heq | hlt
  · unfold roundedNat
    rw [heq]
    exact Nat.mul_le_mul_right _ (roundHalfEven_mono h (hpow n'))
  · have hbelow : n < 2 * binade * (1 * 2 ^ (n.log2 - 52)) :=
      lt_doublings Nat.one_pos (by rw [Nat.div_one])
    have habove : binade * (1 * 2 ^ (n'.log2 - 52)) ≤ n' :=
      doublings_le Nat.one_pos (by rw [Nat.div_one]) (Nat.ne_zero_of_lt hlt)
    rw [Nat.one_mul] at hbelow habove
    have hle := (nearest_roundHalfEven n (hpow n)).le_of_lt hbelow
    have hge := (nearest_roundHalfEven n' (hpow n')).le_of_le (hpow n') habove
    calc roundedNat n ≤ 2 * binade * 2 ^ (n.log2 - 52) := Nat.mul_le_mul_right _ hle
      _ = binade * 2 ^ (n.log2 - 52 + 1) := by
          rw [Nat.pow_succ', ← Nat.mul_assoc, Nat.mul_comm binade 2]
      _ ≤ binade * 2 ^ (n'.log2 - 52) :=
          Nat.mul_le_mul_left _ (Nat.pow_le_pow_right (by decide) hlt)
      _ ≤ roundedNat n' := Nat.mul_le_mul_right _ hge

theorem roundedNat_pos {n : Nat} (h : 0 < n) : 0 < roundedNat n :=
  roundedNat_mono (Nat.succ_le_of_lt h)

theorem rounded_mono {x y : Int} (h : x ≤ y) : rounded x ≤ rounded y := by
  cases x with
  | ofNat m =>
    cases y with
    | ofNat n => exact Int.ofNat_le.mpr (roundedNat_mono (Int.ofNat_le.mp h))
    | negSucc n =>
      have hneg := Int.negSucc_lt_zero n
      have hnonneg : 0 ≤ Int.ofNat m := Int.natCast_nonneg m
      exact absurd (Int.le_trans hnonneg h) (Int.not_le.mpr hneg)
  | negSucc m =>
    cases y with
    | ofNat n =>
      have hm : (0 : Int) ≤ roundedNat (m + 1) := Int.natCast_nonneg _
      have hn : (0 : Int) ≤ roundedNat n := Int.natCast_nonneg _
      show -(roundedNat (m + 1) : Int) ≤ roundedNat n
      omega
    | negSucc n =>
      have hle : n + 1 ≤ m + 1 := by omega
      exact Int.neg_le_neg (Int.ofNat_le.mpr (roundedNat_mono hle))

theorem rounded_eq_self {x : Int} (h : x.natAbs ≤ 2 ^ 53) : rounded x = x := by
  cases x with
  | ofNat n => exact congrArg Int.ofNat (roundedNat_eq_self h)
  | negSucc n =>
    have hself : roundedNat (n + 1) = n + 1 := roundedNat_eq_self h
    show -(roundedNat (n + 1) : Int) = _
    rw [hself]
    rfl

/-- Digits that are added at the end are rounded away again. -/
theorem roundHalfEven_scaled {n j places : Nat} (hn : n.log2 + j = 52 + places) :
    roundHalfEven (n * 2 ^ j) (2 ^ places) * 2 ^ n.log2 = roundedNat n * 2 ^ 52 := by
  unfold roundedNat
  dsimp only
  rcases Nat.le_total n.log2 52 with hle | hge
  · obtain ⟨more, rfl⟩ := Nat.exists_eq_add_of_le (by omega : places ≤ j)
    have hmore : n.log2 + more = 52 := by omega
    have hzero : n.log2 - 52 = 0 := by omega
    have hexact : roundHalfEven (n * 2 ^ (places + more)) (2 ^ places) = n * 2 ^ more := by
      rw [Nat.add_comm, Nat.pow_add, ← Nat.mul_assoc]
      exact roundHalfEven_mul_self _ (Nat.two_pow_pos places)
    rw [hexact, hzero, Nat.pow_zero, roundHalfEven_one, Nat.mul_one, Nat.mul_assoc, ← Nat.pow_add,
      Nat.add_comm more, hmore]
  · obtain ⟨doublings, hlog⟩ := Nat.exists_eq_add_of_le hge
    have hplaces : places = doublings + j := by omega
    have hdoublings : n.log2 - 52 = doublings := by omega
    rw [hdoublings, hplaces, Nat.pow_add, roundHalfEven_mul_mul _ _ (Nat.two_pow_pos j), hlog,
      Nat.pow_add, Nat.mul_assoc, Nat.mul_comm (2 ^ 52)]

end DynLisp.Decimal
