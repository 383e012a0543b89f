/-
  Proofs/Equality.lean --- equal values, told without looking at addresses.

  WHAT THIS FILE IS FOR.  `Store.equal` need not look into two pairs that are one cell, and
  it follows values for as many cells as the store has.  `Alike` does neither: two values
  are alike if they are equal atoms, or pairs of which both halves are alike.  On finite
  trees the two agree, whatever the trees share (`Store.equal_iff_alike`).

  WHY THE SHORTCUT IS RIGHT.  One cell stands for one tree, and every finite tree is alike
  to itself (`Grounded.alike_self`), since every atom is equal to itself.  That the doubles
  which are no numbers count as one is needed for it.
-/
import DynLisp.Proofs.Contents
import DynLisp.Proofs.Scopes

set_option autoImplicit false

namespace DynLisp.Store

/-! ## Values that are alike -/

/-- The two values are equal atoms, or pairs of which both halves are alike. -/
inductive Alike (s : Store) : Value → Value → Prop where
  | atoms {v w : Value} (h : v.equalAtoms w = true) : Alike s v w
  | pairs {a b : Nat} (hfirst : Alike s (s.cell a).first (s.cell b).first)
      (hrest : Alike s (s.cell a).rest (s.cell b).rest) : Alike s (.pair a) (.pair b)

variable {s : Store} {u v w : Value}

theorem Grounded.alike_self (h : s.Grounded v) : s.Alike v v := by
  induction h with
  | atom hv => exact .atoms (Value.equalAtoms_self hv)
  | pair _ _ _ ihfirst ihrest => exact .pairs ihfirst ihrest

namespace Alike

theorem symm (h : s.Alike v w) : s.Alike w v := by
  induction h with
  | @atoms v w h => exact .atoms ((Value.equalAtoms_comm w v).trans h)
  | pairs _ _ ihfirst ihrest => exact .pairs ihfirst ihrest

theorem pair_left_iff {a : Nat} : s.Alike (.pair a) w ↔
    ∃ b, w = .pair b ∧ s.Alike (s.cell a).first (s.cell b).first ∧
      s.Alike (s.cell a).rest (s.cell b).rest := by
  constructor
  · intro h
    cases h with
    | pairs hfirst hrest => exact ⟨_, rfl, hfirst, hrest⟩
    | atoms h =>
      rw [Value.equalAtoms_comm, Value.equalAtoms_pair] at h
      exact Bool.noConfusion h
  · rintro ⟨b, rfl, hfirst, hrest⟩
    exact .pairs hfirst hrest

theorem pairs_iff {a b : Nat} : s.Alike (.pair a) (.pair b) ↔
    s.Alike (s.cell a).first (s.cell b).first ∧ s.Alike (s.cell a).rest (s.cell b).rest := by
  rw [pair_left_iff]
  simp

/-- Only a pair is alike to a pair. -/
theorem iff_equalAtoms (hv : ∀ a, v ≠ .pair a) : s.Alike v w ↔ v.equalAtoms w = true := by
  constructor
  · intro h
    cases h with
    | atoms h => exact h
    | pairs => exact absurd rfl (hv _)
  · exact .atoms

theorem trans (h : s.Alike u v) (h' : s.Alike v w) : s.Alike u w := by
  induction h generalizing w with
  | @atoms u v h =>
    cases h' with
    | atoms h' => exact .atoms (Value.equalAtoms_trans h h')
    | pairs =>
      rw [Value.equalAtoms_pair] at h
      exact Bool.noConfusion h
  | pairs _ _ ihfirst ihrest =>
    obtain ⟨c, rfl, hfirst, hrest⟩ := pair_left_iff.mp h'
    exact .pairs (ihfirst hfirst) (ihrest hrest)

end Alike

/-! ## The shortcut -/

theorem equalWithin_of_atom (hv : ∀ a, v ≠ .pair a) (steps : Nat) (w : Value) :
    s.equalWithin steps v w = v.equalAtoms w := by
  cases steps with
  | zero => rfl
  | succ steps =>
    cases v with
    | pair a => exact absurd rfl (hv a)
    | nil | number | string | symbol => rfl

/-- The bound is enough if the cells that were passed leave room for those to come, and then
neither it nor the shortcut makes a difference. -/
theorem Shows.equalWithin_iff {datum : Datum} (h : s.Shows v datum) {path : List Nat}
    (hpath : s.Passed path datum) {steps : Nat} (hsteps : s.size ≤ steps + path.length) :
    s.equalWithin steps v w = true ↔ s.Alike v w := by
  induction h generalizing path steps w with
  | nil | number | string | symbol =>
    rw [equalWithin_of_atom (by nofun), Alike.iff_equalAtoms (by nofun)]
  | @pair a first rest ha hfirst hrest ihfirst ihrest =>
    have hpair : s.Shows (.pair a) (.cons first rest) := .pair ha hfirst hrest
    obtain ⟨fewer, rfl, hfewer, hpath, hpath'⟩ := hpath.cons hpair hsteps
    cases w with
    | pair b =>
      rw [equalWithin, Bool.or_eq_true, Bool.and_eq_true, decide_eq_true_eq, ihfirst hpath hfewer,
        ihrest hpath' hfewer, Alike.pairs_iff]
      refine or_iff_right_of_imp ?_
      rintro rfl
      exact Alike.pairs_iff.mp hpair.grounded.alike_self
    | nil | number | string | symbol =>
      rw [Alike.pair_left_iff]
      simp [equalWithin, Value.equalAtoms]

theorem Grounded.equal_iff (h : s.Grounded v) : s.equal v w = true ↔ s.Alike v w := by
  obtain ⟨datum, hshows⟩ := h.shows
  exact hshows.equalWithin_iff (Passed.nil s datum) (Nat.le_refl _)

/-- What is done at each pair, without the bound: first the addresses are compared, then the first
halves, and then it goes on with the rest. -/
theorem Grounded.equal_pair {a : Nat} (h : s.Grounded (.pair a)) (b : Nat) :
    s.equal (.pair a) (.pair b) =
      if a = b then true
      else if s.equal (s.cell a).first (s.cell b).first then
        s.equal (s.cell a).rest (s.cell b).rest
      else false := by
  split
  · rename_i hsame
    rw [← hsame, h.equal_iff]
    exact h.alike_self
  cases h with
  | atom h => exact absurd rfl (h a)
  | pair ha hfirst hrest =>
    have hpair : s.Grounded (.pair a) := .pair ha hfirst hrest
    rw [Bool.eq_iff_iff, hpair.equal_iff, Alike.pairs_iff, ← hfirst.equal_iff,
      ← hrest.equal_iff]
    simp

/-- Two finite trees are equal exactly if they are alike, although the loop stops at the first cell
that is the same in both.  And equality of finite trees is an equivalence. -/
theorem equal_iff_alike (s : Store) :
    (∀ v w, (∀ a b, ¬(v = .pair a ∧ w = .pair b)) → s.equal v w = v.equalAtoms w) ∧
    (∀ a, s.Grounded (.pair a) → ∀ b, s.equal (.pair a) (.pair b) =
      if a = b then true
      else if s.equal (s.cell a).first (s.cell b).first then
        s.equal (s.cell a).rest (s.cell b).rest
      else false) ∧
    (∀ v, s.Grounded v → ∀ w, s.equal v w = true ↔ s.Alike v w) ∧
    Equivalence fun v w : {v // s.Grounded v} => s.equal v w = true := by
  refine ⟨fun v w hatoms => ?_, fun a h b => h.equal_pair b, fun v h w => h.equal_iff,
    fun v => ?_, fun {v w} h => ?_, fun {u v w} h h' => ?_⟩
  · cases v with
    | nil | number | string | symbol => exact equalWithin_of_atom (by nofun) _ w
    | pair a =>
      cases w with
      | pair b => exact absurd ⟨rfl, rfl⟩ (hatoms a b)
      | nil | number | string | symbol => unfold equal equalWithin; cases s.size <;> rfl
  · exact v.2.equal_iff.mpr v.2.alike_self
  · exact w.2.equal_iff.mpr (v.2.equal_iff.mp h).symm
  · exact u.2.equal_iff.mpr ((u.2.equal_iff.mp h).trans (v.2.equal_iff.mp h'))

/-- Two lists of two lists, which share their elements and an improper tail.  In one of them a zero
has the other sign, and the tail starts with a double that is no number. -/
theorem equal_iff_alike_shared :
    let s : Store := { cells := #[
      ⟨.number (.double (0 / 0)), .string ⟨0, "tail"⟩⟩,
      ⟨.number (.double 0), .pair 0⟩,
      ⟨.number (.double (-0)), .pair 0⟩,
      ⟨.pair 1, .pair 1⟩,
      ⟨.pair 2, .pair 1⟩] }
    s.Grounded (.pair 3) ∧ s.equal (.pair 3) (.pair 4) = true ∧ s.Alike (.pair 3) (.pair 4) := by
  intro s
  have h0 : s.Grounded (.pair 0) := .pair (by decide) (.atom nofun) (.atom nofun)
  have h1 : s.Grounded (.pair 1) := .pair (by decide) (.atom nofun) h0
  have h3 : s.Grounded (.pair 3) := .pair (by decide) h1 h1
  have hequal : s.equal (.pair 3) (.pair 4) = true := by decide
  exact ⟨h3, hequal, ((equal_iff_alike s).2.2.1 (.pair 3) h3 (.pair 4)).mp hequal⟩

end DynLisp.Store
