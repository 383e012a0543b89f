/-
  Proofs/Contents.lean --- the datum that a value shows, as a relation.

  WHAT THIS FILE IS FOR.  `Store.content` follows a value for as many cells on any one
  path as the store has.  `Shows` follows it for as long as there is anything to follow.
  A value that is a finite tree shows one datum and no other (`Grounded.shows`,
  `Shows.unique`), and it is the content (`Shows.content_eq`): on the way into a tree
  the data get smaller, so that no cell is come to twice on one path.
-/
import DynLisp.Proofs.Preservation

set_option autoImplicit false

namespace DynLisp

namespace Store

/-- The value shows a datum: an atom shows itself, and a pair what its two halves show. -/
inductive Shows (s : Store) : Value → Datum → Prop where
  | nil : Shows s .nil .nil
  | number (n : Number) : Shows s (.number n) (.number n)
  | string (label : Label) : Shows s (.string label) (.string label.text)
  | symbol (label : Label) : Shows s (.symbol label) (.symbol label.text)
  | pair {a : Nat} {first rest : Datum} (ha : a < s.size)
      (hfirst : Shows s (s.cell a).first first) (hrest : Shows s (s.cell a).rest rest) :
    Shows s (.pair a) (.cons first rest)

theorem Grounded.shows {s : Store} {v : Value} (h : s.Grounded v) : ∃ datum, s.Shows v datum := by
  induction h with
  | @atom v hatom =>
    cases v with
    | nil => exact ⟨_, .nil⟩
    | number n => exact ⟨_, .number n⟩
    | string label => exact ⟨_, .string label⟩
    | symbol label => exact ⟨_, .symbol label⟩
    | pair a => exact absurd rfl (hatom a)
  | pair ha _ _ ihfirst ihrest =>
    obtain ⟨first, hfirst⟩ := ihfirst
    obtain ⟨rest, hrest⟩ := ihrest
    exact ⟨_, .pair ha hfirst hrest⟩

namespace Shows

variable {s : Store} {v : Value} {datum datum' : Datum}

theorem grounded (h : s.Shows v datum) : s.Grounded v := by
  induction h with
  | nil | number | string | symbol => exact .atom nofun
  | pair ha _ _ ihfirst ihrest => exact .pair ha ihfirst ihrest

theorem unique (h : s.Shows v datum) (h' : s.Shows v datum') : datum = datum' := by
  induction h generalizing datum' with
  | nil | number | string | symbol => cases h'; rfl
  | pair _ _ _ ihfirst ihrest =>
    cases h' with
    | pair _ hfirst hrest => rw [ihfirst hfirst, ihrest hrest]

end Shows

/-! ## Paths into a tree -/

/-- The cells are all different, and each shows something larger than the datum, as do those that
were passed on the way into a tree. -/
structure Passed (s : Store) (path : List Nat) (datum : Datum) : Prop where
  nodup : path.Nodup
  larger : ∀ a ∈ path, ∃ larger, s.Shows (.pair a) larger ∧ sizeOf datum < sizeOf larger

theorem Passed.nil (s : Store) (datum : Datum) : s.Passed [] datum :=
  ⟨List.nodup_nil, fun _ h => absurd h List.not_mem_nil⟩

/-- On the way to the halves of a pair its own cell is passed as well, and there is room for it. -/
theorem Passed.cons {s : Store} {path : List Nat} {a : Nat} {first rest : Datum}
    (h : s.Passed path (.cons first rest)) (hpair : s.Shows (.pair a) (.cons first rest))
    {steps : Nat} (hsteps : s.size ≤ steps + path.length) :
    ∃ fewer, steps = fewer + 1 ∧ s.size ≤ fewer + (a :: path).length ∧
      s.Passed (a :: path) first ∧ s.Passed (a :: path) rest := by
  have hfresh : a ∉ path := by
    intro hmem
    obtain ⟨larger, hlarger, hlt⟩ := h.larger a hmem
    rw [← hpair.unique hlarger] at hlt
    exact Nat.lt_irrefl _ hlt
  have hnodup : (a :: path).Nodup := List.nodup_cons.mpr ⟨hfresh, h.nodup⟩
  have hpart : ∀ part : Datum, sizeOf part < sizeOf (Datum.cons first rest) →
      s.Passed (a :: path) part := by
    refine fun part hpart => ⟨hnodup, fun b hb => ?_⟩
    rcases List.mem_cons.mp hb with rfl | hb
    · exact ⟨_, hpair, hpart⟩
    · obtain ⟨larger, hlarger, hlt⟩ := h.larger b hb
      exact ⟨larger, hlarger, Nat.lt_trans hpart hlt⟩
  have hsize : sizeOf first < sizeOf (Datum.cons first rest) ∧
      sizeOf rest < sizeOf (Datum.cons first rest) := by
    rw [Datum.cons.sizeOf_spec]
    omega
  have hsub : (a :: path) ⊆ List.range s.size := by
    intro b hb
    obtain ⟨larger, hlarger, -⟩ := (hpart first hsize.1).larger b hb
    cases hlarger with
    | pair hlt => exact List.mem_range.mpr hlt
  have hlength : path.length + 1 ≤ s.size := by
    simpa using hnodup.length_le_of_subset hsub
  obtain ⟨fewer, rfl⟩ : ∃ fewer, steps = fewer + 1 := ⟨steps - 1, by omega⟩
  have hfewer : s.size ≤ fewer + (a :: path).length := by
    rw [List.length_cons]
    omega
  exact ⟨fewer, rfl, hfewer, hpart first hsize.1, hpart rest hsize.2⟩

namespace Shows

variable {s : Store} {v : Value} {datum : Datum}

/-- A bound is enough if the cells on the path so far leave room for those to come. -/
theorem contentWithin_eq (h : s.Shows v datum) {path : List Nat} (hpath : s.Passed path datum)
    {steps : Nat} (hsteps : s.size ≤ steps + path.length) : s.contentWithin steps v = datum := by
  induction h generalizing path steps with
  | nil | number | string | symbol => cases steps <;> rfl
  | @pair a first rest ha hfirst hrest ihfirst ihrest =>
    obtain ⟨fewer, rfl, hfewer, hpath, hpath'⟩ := hpath.cons (.pair ha hfirst hrest) hsteps
    rw [contentWithin, ihfirst hpath hfewer, ihrest hpath' hfewer]

theorem content_eq (h : s.Shows v datum) : s.content v = datum :=
  h.contentWithin_eq (Passed.nil s datum) (Nat.le_refl _)

end Shows

end Store

namespace Memory

variable {m m' : Memory} {v : Value}

/-- What can be seen shows its content. -/
theorem Valid.shows (h : m.Valid) (hv : m.Visible v) : m.store.Shows v (m.store.content v) := by
  obtain ⟨datum, hshows⟩ := (h.grounded v hv).shows
  rwa [hshows.content_eq]

theorem Spares.shows (hm : m.Spares m') (h : m.Valid) {datum : Datum}
    (hshows : m.store.Shows v datum) (hv : m.Visible v) : m'.store.Shows v datum := by
  induction hshows with
  | nil => exact .nil
  | number n => exact .number n
  | string label => exact .string label
  | symbol label => exact .symbol label
  | @pair a first rest ha _ _ ihfirst ihrest =>
    obtain ⟨hfirst, hrest⟩ := h.cell_visible a hv
    obtain ⟨hv', hcell⟩ := hm.cells a hv
    refine .pair hv'.1 ?_ ?_
    · rw [hcell]
      exact ihfirst hfirst
    · rw [hcell]
      exact ihrest hrest

/-- As long as only global values are overwritten, what can be seen shows what it showed. -/
theorem Spares.content_eq (hm : m.Spares m') (h : m.Valid) (hv : m.Visible v) :
    m'.store.content v = m.store.content v := (hm.shows h (h.shows hv) hv).content_eq

/-- A new pair shows what its halves do. -/
theorem Valid.shows_appended (h : m.Valid) {first rest : Value} (hfirst : m.Visible first)
    (hrest : m.Visible rest) {datum datum' : Datum} (hshows : m.store.Shows first datum)
    (hshows' : m.store.Shows rest datum') :
    (m.store.appended first rest).Shows (.pair m.store.size) (.cons datum datum') := by
  have hspares := (h.appended hfirst hrest).evolves.toSpares
  refine .pair (by simp) ?_ ?_
  · rw [Store.cell_appended_size]
    exact hspares.shows h hshows hfirst
  · rw [Store.cell_appended_size]
    exact hspares.shows h hshows' hrest

/-- A value made of a datum shows it. -/
theorem Valid.shows_load (h : m.Valid) (datum : Datum) :
    ((Store.load datum).run m.store).2.Shows ((Store.load datum).run m.store).1 datum := by
  induction datum generalizing m with
  | nil => exact .nil
  | number n => exact .number n
  | string text => exact .string _
  | symbol name => exact .symbol _
  | cons first rest ihfirst ihrest =>
    have hfirst := h.load first
    have hrest := hfirst.valid.load rest
    have hshows := hrest.evolves.toSpares.shows hfirst.valid (ihfirst h) hfirst.visible
    exact hrest.valid.shows_appended (hrest.evolves.visible hfirst.visible) hrest.visible hshows
      (ihrest hfirst.valid)

end Memory

end DynLisp
