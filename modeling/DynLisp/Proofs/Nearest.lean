/-
  Proofs/Nearest.lean --- rounding goes to the nearest, and there and back again.

  WHAT THIS FILE IS FOR.  A double is printed by rounding its exact value to six
  decimal places, and read by rounding the decimal to a double.  Neither is exact.
  But what is printed is nearer to the first double than to any other multiple of
  a millionth, and what is read is nearer to the printed decimal than any other
  double is.  So printing what was read gives the printed decimal again
  (`roundHalfEven_units_nearest`).

  Everything is in natural numbers, and so are distances.
-/
import DynLisp.Decimal.Binary
import Mathlib.Data.Nat.Dist

set_option autoImplicit false

namespace DynLisp.Decimal

/-! ## Rounding to whole numbers -/

section Rounding

variable {num den : Nat}

/-- A multiple of `den` that is half a step from `num` at most, and the even one of two. -/
structure Nearest (num den k : Nat) : Prop where
  dist_le : 2 * Nat.dist (k * den) num ≤ den
  even : 2 * Nat.dist (k * den) num = den → k % 2 = 0

theorem nearest_roundHalfEven (num : Nat) {den : Nat} (hden : 0 < den) :
    Nearest num den (roundHalfEven num den) := by
  have hnum : num = num / den * den + num % den := (Nat.div_add_mod' num den).symm
  have hrem : num % den < den := Nat.mod_lt num hden
  have hnext : (num / den + 1) * den = num / den * den + den := Nat.succ_mul _ _
  unfold roundHalfEven
  dsimp only
  split
  · constructor
    · unfold Nat.dist; omega
    · unfold Nat.dist; omega
  · split
    · constructor
      · rw [hnext]; unfold Nat.dist; omega
      · rw [hnext]; unfold Nat.dist; omega
    · rcases Nat.mod_two_eq_zero_or_one (num / den) with heven | hodd
      · rw [heven, Nat.add_zero]
        exact ⟨by unfold Nat.dist; omega, fun _ => heven⟩
      · rw [hodd]
        exact ⟨by rw [hnext]; unfold Nat.dist; omega, fun _ => by omega⟩

theorem Nearest.unique {k k' : Nat} (hden : 0 < den) (h : Nearest num den k)
    (h' : Nearest num den k') : k = k' := by
  wlog hle : k ≤ k' generalizing k k'
  · exact (this h' h (by omega)).symm
  by_contra hne
  have hstep : (k + 1) * den ≤ k' * den := Nat.mul_le_mul_right den (by omega)
  rw [Nat.succ_mul] at hstep
  obtain ⟨hd, he⟩ := h
  obtain ⟨hd', he'⟩ := h'
  have hfar : den ≤ k' * den - k * den := by omega
  have heq : 2 * Nat.dist (k * den) num = den := by unfold Nat.dist at *; omega
  have heq' : 2 * Nat.dist (k' * den) num = den := by unfold Nat.dist at *; omega
  have hone : k' * den = (k + 1) * den := by
    rw [Nat.succ_mul]
    unfold Nat.dist at *; omega
  have := Nat.eq_of_mul_eq_mul_right hden hone
  have := he heq
  have := he' heq'
  omega

theorem roundHalfEven_eq_iff (hden : 0 < den) (k : Nat) :
    roundHalfEven num den = k ↔ Nearest num den k :=
  ⟨fun h => h ▸ nearest_roundHalfEven num hden,
    fun h => (nearest_roundHalfEven num hden).unique hden h⟩

theorem Nearest.dist_le_dist {k : Nat} (h : Nearest num den k) (j : Nat) :
    Nat.dist (k * den) num ≤ Nat.dist (j * den) num := by
  obtain ⟨hd, -⟩ := h
  rcases Nat.lt_trichotomy j k with hlt | rfl | hgt
  · have hstep : (j + 1) * den ≤ k * den := Nat.mul_le_mul_right den hlt
    rw [Nat.succ_mul] at hstep
    unfold Nat.dist at *; omega
  · exact Nat.le_refl _
  · have hstep : (k + 1) * den ≤ j * den := Nat.mul_le_mul_right den hgt
    rw [Nat.succ_mul] at hstep
    unfold Nat.dist at *; omega
theorem Nearest.le_of_lt {k j : Nat} (h : Nearest num den k) (hj : num < j * den) : k ≤ j := by
  obtain ⟨hd, -⟩ := h
  by_contra hlt
  have hstep : (j + 1) * den ≤ k * den := Nat.mul_le_mul_right den (by omega)
  rw [Nat.succ_mul] at hstep
  unfold Nat.dist at hd
  omega

theorem Nearest.le_of_le {k j : Nat} (hden : 0 < den) (h : Nearest num den k)
    (hj : j * den ≤ num) : j ≤ k := by
  obtain ⟨hd, -⟩ := h
  by_contra hlt
  have hstep : (k + 1) * den ≤ j * den := Nat.mul_le_mul_right den (by omega)
  rw [Nat.succ_mul] at hstep
  unfold Nat.dist at hd
  omega

end Rounding

/-! ## What magnitudes stand for -/

/-- How many magnitudes there are from one doubling to the next. -/
def binade : Nat := 2 ^ 52

theorem units_of_lt {m : Nat} (h : m < binade) : units m = m := by
  have hquot : m / Nat.pow 2 52 = 0 := Nat.div_eq_of_lt h
  have hrem : m % Nat.pow 2 52 = m := Nat.mod_eq_of_lt h
  unfold units
  rw [hquot, hrem]
  rfl

/-- The magnitudes of one binade stand for the multiples of a power of two.  Its end is the start of
the next. -/
theorem units_binade (k : Nat) {r : Nat} (hr : binade ≤ r) (hr' : r ≤ 2 * binade) :
    units (k * binade + r) = r * 2 ^ k := by
  have hb : Nat.pow 2 52 = binade := rfl
  have hpos : 0 < binade := Nat.two_pow_pos 52
  unfold units
  rw [hb]
  rcases Nat.lt_or_eq_of_le hr' with hlt | rfl
  · obtain ⟨f, rfl⟩ := Nat.exists_eq_add_of_le hr
    have hf : f < binade := by omega
    have hsum : k * binade + (binade + f) = (k + 1) * binade + f := by
      rw [Nat.succ_mul, Nat.add_assoc]
    have hquot : ((k + 1) * binade + f) / binade = k + 1 := by
      rw [Nat.add_comm, Nat.add_mul_div_right _ _ hpos, Nat.div_eq_of_lt hf, Nat.zero_add]
    have hrem : ((k + 1) * binade + f) % binade = f := by
      rw [Nat.add_comm, Nat.add_mul_mod_self_right, Nat.mod_eq_of_lt hf]
    rw [hsum, hquot, hrem, if_neg (Nat.succ_ne_zero k), Nat.add_sub_cancel]
    rfl
  · have hsum : k * binade + 2 * binade = (k + 2) * binade := (Nat.add_mul k 2 binade).symm
    rw [hsum, Nat.mul_div_cancel _ hpos, Nat.mul_mod_left, if_neg (by omega), Nat.add_zero]
    show binade * 2 ^ (k + 1) = _
    rw [Nat.pow_succ', ← Nat.mul_assoc, Nat.mul_comm binade 2]

/-- Every magnitude is below the first binade or in one of them. -/
theorem magnitude_cases (m : Nat) :
    m < binade ∨ ∃ k r, binade ≤ r ∧ r < 2 * binade ∧ m = k * binade + r := by
  have hpos : 0 < binade := Nat.two_pow_pos 52
  rcases Nat.lt_or_ge m binade with hlt | hge
  · exact .inl hlt
  · obtain ⟨n, rfl⟩ := Nat.exists_eq_add_of_le hge
    refine .inr ⟨n / binade, binade + n % binade, Nat.le_add_right _ _, ?_, ?_⟩
    · have hlt := Nat.mod_lt n hpos
      omega
    · have hdiv := Nat.div_add_mod' n binade
      omega

/-- Above a power of two, all magnitudes stand for its multiples. -/
theorem dvd_units_or_le (k m : Nat) : 2 ^ k ∣ units m ∨ units m ≤ binade * 2 ^ k := by
  rcases magnitude_cases m with hlt | ⟨j, r, hr, hr', rfl⟩
  · right
    rw [units_of_lt hlt]
    exact Nat.le_trans (Nat.le_of_lt hlt) (Nat.le_mul_of_pos_right _ (Nat.two_pow_pos k))
  · rw [units_binade j hr (Nat.le_of_lt hr')]
    rcases Nat.lt_or_ge j k with hjk | hkj
    · right
      calc r * 2 ^ j ≤ 2 * binade * 2 ^ j := Nat.mul_le_mul_right _ (Nat.le_of_lt hr')
        _ = binade * 2 ^ (j + 1) := by rw [Nat.pow_succ', ← Nat.mul_assoc, Nat.mul_comm binade 2]
        _ ≤ binade * 2 ^ k := Nat.mul_le_mul_left _ (Nat.pow_le_pow_right (by decide) hjk)
    · exact .inl ((Nat.pow_dvd_pow 2 hkj).mul_left r)

/-- From a binade on, magnitudes stand for at least so much, and before it for a whole step less. -/
theorem le_units {k m : Nat} (h : (k + 1) * binade ≤ m) : binade * 2 ^ k ≤ units m := by
  rcases magnitude_cases m with hlt | ⟨j, r, hr, hr', rfl⟩
  · rw [Nat.succ_mul] at h
    omega
  · have hjk : k ≤ j := by
      by_contra hlt
      have hle : (j + 1) * binade ≤ k * binade := Nat.mul_le_mul_right _ (by omega)
      rw [Nat.succ_mul] at hle h
      omega
    rw [units_binade j hr (Nat.le_of_lt hr')]
    exact Nat.mul_le_mul hr (Nat.pow_le_pow_right (by decide) hjk)

theorem units_add_le {k m : Nat} (h : m < (k + 2) * binade) :
    units m + 2 ^ k ≤ 2 * binade * 2 ^ k := by
  have hpow : 0 < 2 ^ k := Nat.two_pow_pos k
  rcases magnitude_cases m with hlt | ⟨j, r, hr, hr', rfl⟩
  · rw [units_of_lt hlt]
    calc m + 2 ^ k ≤ m * 2 ^ k + 2 ^ k := Nat.add_le_add_right (Nat.le_mul_of_pos_right m hpow) _
      _ = (m + 1) * 2 ^ k := (Nat.succ_mul m _).symm
      _ ≤ 2 * binade * 2 ^ k := Nat.mul_le_mul_right _ (by omega)
  · have hjk : j ≤ k := by
      by_contra hlt
      have hle : (k + 1) * binade ≤ j * binade := Nat.mul_le_mul_right _ (by omega)
      rw [Nat.succ_mul] at hle
      rw [Nat.add_mul] at h
      omega
    rw [units_binade j hr (Nat.le_of_lt hr')]
    calc r * 2 ^ j + 2 ^ k ≤ r * 2 ^ k + 2 ^ k :=
          Nat.add_le_add_right (Nat.mul_le_mul_left r (Nat.pow_le_pow_right (by decide) hjk)) _
      _ = (r + 1) * 2 ^ k := (Nat.succ_mul r _).symm
      _ ≤ 2 * binade * 2 ^ k := Nat.mul_le_mul_right _ hr'

/-! ## Rounding to magnitudes -/

/-- The magnitude nearest to `num / den`, if there were no greatest one. -/
def nearestUnbounded (num den : Nat) : Nat :=
  let scaled := num * unitsPerOne
  let doublings := (scaled / den).log2 - 52
  doublings * binade + roundHalfEven scaled (den * 2 ^ doublings)

theorem nearest_eq_min (num den : Nat) :
    nearest num den = min (nearestUnbounded num den) infinityMagnitude := rfl

section Doublings

variable {scaled den k : Nat} (hden : 0 < den) (hk : (scaled / den).log2 - 52 = k)
include hden hk

/-- So often doubled, the fraction has 53 binary digits at most. -/
theorem lt_doublings : scaled < 2 * binade * (den * 2 ^ k) := by
  have hquot : scaled / den < 2 * binade * 2 ^ k := by
    calc scaled / den < 2 ^ ((scaled / den).log2 + 1) := Nat.lt_log2_self
      _ ≤ 2 ^ (53 + k) := Nat.pow_le_pow_right (by decide) (by omega)
      _ = 2 * binade * 2 ^ k := Nat.pow_add 2 53 k
  rw [Nat.div_lt_iff_lt_mul hden] at hquot
  rwa [Nat.mul_comm den, ← Nat.mul_assoc]

/-- And if it is doubled at all, it has no fewer. -/
theorem doublings_le (hpos : k ≠ 0) : binade * (den * 2 ^ k) ≤ scaled := by
  have hquot : binade * 2 ^ k ≤ scaled / den := by
    have hne : scaled / den ≠ 0 := by
      intro hzero
      rw [hzero] at hk
      exact hpos hk.symm
    calc binade * 2 ^ k = 2 ^ (52 + k) := (Nat.pow_add 2 52 k).symm
      _ ≤ 2 ^ (scaled / den).log2 := Nat.pow_le_pow_right (by decide) (by omega)
      _ ≤ scaled / den := Nat.log2_self_le hne
  rw [Nat.le_div_iff_mul_le hden] at hquot
  rwa [Nat.mul_comm den, ← Nat.mul_assoc]

/-- What the magnitude stands for that is made of the doublings and the rounded fraction. -/
theorem units_doublings {r : Nat} (hr : Nearest scaled (den * 2 ^ k) r) :
    units (k * binade + r) = r * 2 ^ k := by
  have hstep : 0 < den * 2 ^ k := Nat.mul_pos hden (Nat.two_pow_pos k)
  have hle : r ≤ 2 * binade := hr.le_of_lt (lt_doublings hden hk)
  rcases Nat.lt_or_ge r binade with hlt | hge
  · have hzero : k = 0 := by
      by_contra hpos
      exact absurd (hr.le_of_le hstep (doublings_le hden hk hpos)) (Nat.not_le.mpr hlt)
    rw [hzero, Nat.zero_mul, Nat.zero_add, units_of_lt hlt, Nat.pow_zero, Nat.mul_one]
  · exact units_binade k hge hle

end Doublings

/-- No magnitude stands for anything nearer. -/
theorem dist_units_nearestUnbounded_le (num : Nat) {den : Nat} (hden : 0 < den) (m : Nat) :
    Nat.dist (units (nearestUnbounded num den) * den) (num * unitsPerOne) ≤
      Nat.dist (units m * den) (num * unitsPerOne) := by
  unfold nearestUnbounded
  dsimp only
  generalize num * unitsPerOne = scaled
  generalize hk : (scaled / den).log2 - 52 = k
  have hstep : 0 < den * 2 ^ k := Nat.mul_pos hden (Nat.two_pow_pos k)
  have hnear := nearest_roundHalfEven scaled hstep
  generalize roundHalfEven scaled (den * 2 ^ k) = r at hnear
  have hassoc : ∀ j, j * 2 ^ k * den = j * (den * 2 ^ k) := by
    intro j
    rw [Nat.mul_assoc, Nat.mul_comm (2 ^ k) den]
  rw [units_doublings hden hk hnear, hassoc]
  by_cases hzero : k = 0
  · -- Without doublings, every whole number of units is a candidate.
    subst hzero
    have hall := hnear.dist_le_dist (units m)
    rwa [Nat.pow_zero, Nat.mul_one] at hall ⊢
  · rcases dvd_units_or_le k m with ⟨j, hj⟩ | hle
    · rw [hj, Nat.mul_comm (2 ^ k) j, hassoc]
      exact hnear.dist_le_dist j
    · -- What is no candidate lies below the least one.
      have hleast := doublings_le hden hk hzero
      have hbelow : units m * den ≤ binade * (den * 2 ^ k) := by
        rw [← hassoc]
        exact Nat.mul_le_mul_right den hle
      have hnearer := hnear.dist_le_dist binade
      unfold Nat.dist at *
      omega

theorem unitsPerOne_pos : 0 < unitsPerOne := by decide +kernel

theorem units_add_le_units {k m m' : Nat} (hm : m < (k + 2) * binade)
    (hm' : (k + 2) * binade ≤ m') : units m + 2 ^ k ≤ units m' := by
  have hlast := units_add_le hm
  have hnext : binade * 2 ^ (k + 1) ≤ units m' := le_units hm'
  rw [Nat.pow_succ', ← Nat.mul_assoc, Nat.mul_comm binade 2] at hnext
  exact Nat.le_trans hlast hnext

/-- From the last finite magnitude to infinity it is further than from one whole number to the
next. -/
theorem units_add_unitsPerOne_lt {m m' : Nat} (hm : m < infinityMagnitude)
    (hm' : infinityMagnitude ≤ m') : units m + unitsPerOne < units m' := by
  have hgap : unitsPerOne < 2 ^ 2045 := by decide +kernel
  exact Nat.lt_of_lt_of_le (Nat.add_lt_add_left hgap _) (units_add_le_units hm hm')

/-- To print is to round to a multiple of a step, and to read is to round to a magnitude.  A
magnitude that is printed and read may come back as another one, but it is printed the same. -/
theorem roundHalfEven_units_nearest {steps m : Nat} (hsteps : 0 < steps)
    (hm : m < infinityMagnitude) :
    let read := nearest (roundHalfEven (units m * steps) unitsPerOne) steps
    read < infinityMagnitude ∧
      roundHalfEven (units read * steps) unitsPerOne =
        roundHalfEven (units m * steps) unitsPerOne := by
  have hprinted := nearest_roundHalfEven (units m * steps) unitsPerOne_pos
  generalize roundHalfEven (units m * steps) unitsPerOne = n at hprinted
  have hread := dist_units_nearestUnbounded_le n hsteps m
  rw [Nat.dist_comm, Nat.dist_comm (units m * steps)] at hread
  have hfinite : nearestUnbounded n steps < infinityMagnitude := by
    by_contra hge
    have hgap := units_add_unitsPerOne_lt hm (Nat.le_of_not_lt hge)
    have hsteps' : (units m + unitsPerOne + 1) * steps ≤
        units (nearestUnbounded n steps) * steps := Nat.mul_le_mul_right steps hgap
    have hone : unitsPerOne ≤ unitsPerOne * steps := Nat.le_mul_of_pos_right _ hsteps
    rw [Nat.succ_mul, Nat.add_mul] at hsteps'
    have hhalf := hprinted.dist_le
    unfold Nat.dist at hread hhalf
    omega
  have heq : nearest n steps = nearestUnbounded n steps :=
    Nat.min_eq_left (Nat.le_of_lt hfinite)
  dsimp only
  rw [heq, roundHalfEven_eq_iff unitsPerOne_pos]
  refine ⟨hfinite, Nat.le_trans (Nat.mul_le_mul_left 2 hread) hprinted.dist_le, ?_⟩
  intro htie
  have hhalf := hprinted.dist_le
  exact hprinted.even (by omega)

end DynLisp.Decimal
