/-
  Proofs/Chains.lean --- chains of cells and values without cycles, as relations.

  WHAT THIS FILE IS FOR.  `Store.links`, `Store.elements` and `Store.tail` walk a
  chain for as many steps as the store has cells.  `Chain` is the walk itself,
  with no bound on it.  A chain that ends visits no cell twice, so the bound is
  always enough and the two say the same (`Chain.links_eq`, `Chain.tail_eq`).

  `Grounded` says that a value is a finite tree, whatever way it is followed, and
  `Reaches` where the ways through it lead.
-/
import DynLisp.Environment
import DynLisp.Proofs.Cells

set_option autoImplicit false

namespace DynLisp.Store

/-! ## Chains -/

/-- The cells on the way along the second halves, up to the first value that is not a pair. -/
inductive Chain (s : Store) : Value → List Nat → Value → Prop where
  | stop {v : Value} (h : ∀ a, v ≠ .pair a) : Chain s v [] v
  | link {a : Nat} {links : List Nat} {last : Value} (ha : a < s.size)
      (rest : Chain s (s.cell a).rest links last) : Chain s (.pair a) (a :: links) last

namespace Chain

variable {s s' : Store} {v last : Value} {links : List Nat}

theorem lt_size (h : s.Chain v links last) : ∀ a ∈ links, a < s.size := by
  induction h with
  | stop => simp
  | link ha _ ih =>
    intro a hmem
    rcases List.mem_cons.mp hmem with rfl | hmem
    · exact ha
    · exact ih a hmem

theorem unique (h : s.Chain v links last) {links' : List Nat} {last' : Value}
    (h' : s.Chain v links' last') : links = links' ∧ last = last' := by
  induction h generalizing links' with
  | stop hv =>
    cases h' with
    | stop => exact ⟨rfl, rfl⟩
    | link => exact absurd rfl (hv _)
  | link _ _ ih =>
    cases h' with
    | stop hv => exact absurd rfl (hv _)
    | link _ rest =>
      obtain ⟨rfl, rfl⟩ := ih rest
      exact ⟨rfl, rfl⟩

/-- What holds of a value, and of what comes after every cell of which it holds, holds of all cells
of the chain from the value. -/
theorem forall_links {P : Value → Prop} (h : s.Chain v links last)
    (hrest : ∀ a, P (.pair a) → P (s.cell a).rest) (hv : P v) : ∀ a ∈ links, P (.pair a) := by
  induction h with
  | stop => simp
  | @link b links last hlt rest ih =>
    intro a ha
    rcases List.mem_cons.mp ha with rfl | ha
    · exact hv
    · exact ih (hrest b hv) a ha

/-- From each of its cells on, a chain is a chain again. -/
theorem of_mem (h : s.Chain v links last) {a : Nat} (ha : a ∈ links) :
    ∃ after, s.Chain (.pair a) (a :: after) last ∧ after.length < links.length := by
  induction h with
  | stop => simp at ha
  | link hlt rest ih =>
    rcases List.mem_cons.mp ha with rfl | ha
    · exact ⟨_, .link hlt rest, by simp⟩
    · obtain ⟨after, hafter, hlen⟩ := ih ha
      exact ⟨after, hafter, by simp only [List.length_cons]; omega⟩

/-- A chain that comes to an end visits no cell twice. -/
theorem nodup (h : s.Chain v links last) : links.Nodup := by
  induction h with
  | stop => exact List.nodup_nil
  | @link a links last hlt rest ih =>
    refine List.nodup_cons.mpr ⟨?_, ih⟩
    intro hmem
    obtain ⟨after, hafter, hlen⟩ := rest.of_mem hmem
    obtain ⟨heq, -⟩ := hafter.unique (.link hlt rest)
    rw [(List.cons.inj heq).2] at hlen
    exact Nat.lt_irrefl _ hlen

theorem length_le_size (h : s.Chain v links last) : links.length ≤ s.size := by
  have hsub : links ⊆ List.range s.size := fun a ha => List.mem_range.mpr (h.lt_size a ha)
  simpa using h.nodup.length_le_of_subset hsub

/-! ## The bounded walk -/

theorem linksWithin_eq (h : s.Chain v links last) {steps : Nat} (hsteps : links.length ≤ steps) :
    s.linksWithin steps v = links := by
  induction h generalizing steps with
  | stop hv =>
    cases steps with
    | zero => rfl
    | succ steps =>
      unfold linksWithin
      split
      · exact absurd rfl (hv _)
      · rfl
  | link _ _ ih =>
    cases steps with
    | zero => simp at hsteps
    | succ steps => rw [linksWithin, ih (Nat.le_of_succ_le_succ hsteps)]

theorem endWithin_eq (h : s.Chain v links last) {steps : Nat} (hsteps : links.length ≤ steps) :
    s.endWithin steps v = last := by
  induction h generalizing steps with
  | stop hv =>
    cases steps with
    | zero => rfl
    | succ steps =>
      unfold endWithin
      split
      · exact absurd rfl (hv _)
      · rfl
  | link _ _ ih =>
    cases steps with
    | zero => simp at hsteps
    | succ steps => rw [endWithin, ih (Nat.le_of_succ_le_succ hsteps)]

theorem links_eq (h : s.Chain v links last) : s.links v = links :=
  h.linksWithin_eq h.length_le_size

theorem tail_eq (h : s.Chain v links last) : s.tail v = last :=
  h.endWithin_eq h.length_le_size

theorem elements_eq (h : s.Chain v links last) :
    s.elements v = links.map fun a => (s.cell a).first := by
  rw [elements, h.links_eq]

/-- A chain stays one as long as the second halves of its cells do. -/
theorem congr (h : s.Chain v links last)
    (hcells : ∀ a ∈ links, a < s'.size ∧ (s'.cell a).rest = (s.cell a).rest) :
    s'.Chain v links last := by
  induction h with
  | stop hv => exact .stop hv
  | @link a links last _ rest ih =>
    obtain ⟨hlt, hrest⟩ := hcells a List.mem_cons_self
    refine .link hlt ?_
    rw [hrest]
    exact ih fun b hb => hcells b (List.mem_cons_of_mem a hb)

end Chain

/-! ## New lists -/

/-- From each new cell of a list on, there is a chain of all that were made after it. -/
theorem Built.chain_from {s s' : Store} {items : List Value} {builder : Builder}
    (h : s.Built items builder s') (i : Nat) (hi : i < items.length) :
    s'.Chain (.pair (s.size + i)) (List.range' (s.size + i) (items.length - i)) .nil := by
  have hsplit : items.length - i = items.length - (i + 1) + 1 := by omega
  rw [hsplit, List.range'_succ]
  refine .link (by rw [h.size_eq]; omega) ?_
  rw [h.cell_new i hi]
  by_cases hmore : i + 1 < items.length
  · simp only [hmore, if_true]
    exact h.chain_from (i + 1) hmore
  · have hlast : items.length - (i + 1) = 0 := by omega
    simp only [hmore, if_false, hlast]
    exact .stop (by simp)
termination_by items.length - i

/-- A builder has its cells in order. -/
theorem Built.chain {s s' : Store} {items : List Value} {builder : Builder}
    (h : s.Built items builder s') :
    s'.Chain builder.finish (List.range' s.size items.length) .nil := by
  rw [h.builder_eq]
  by_cases hitems : items = []
  · subst hitems
    exact .stop (by simp [Builder.finish])
  · rw [if_neg hitems]
    exact h.chain_from 0 (List.length_pos_iff.mpr hitems)

/-- The elements of a new list are the values that it was made of. -/
theorem elements_list (s : Store) (items : List Value) :
    ((list items).run s).2.elements ((list items).run s).1 = items := by
  obtain ⟨builder, hbuilt, hresult⟩ := built_list s items
  rw [hresult, hbuilt.chain.elements_eq]
  apply List.ext_getElem
  · simp
  · intro i hi hi'
    rw [List.getElem_map, List.getElem_range', Nat.one_mul, hbuilt.cell_new i hi']

/-! ## Values without cycles -/

/-- The value is a finite tree. -/
inductive Grounded (s : Store) : Value → Prop where
  | atom {v : Value} (h : ∀ a, v ≠ .pair a) : Grounded s v
  | pair {a : Nat} (ha : a < s.size) (first : Grounded s (s.cell a).first)
      (rest : Grounded s (s.cell a).rest) : Grounded s (.pair a)

theorem Grounded.chain {s : Store} {v : Value} (h : s.Grounded v) :
    ∃ links last, s.Chain v links last := by
  induction h with
  | atom hv => exact ⟨[], _, .stop hv⟩
  | pair ha _ _ _ ih =>
    obtain ⟨links, last, hchain⟩ := ih
    exact ⟨_, last, .link ha hchain⟩

/-- If the cell that is changed is a finite tree afterwards, so is all that was one before. -/
theorem Grounded.of_update {s : Store} {a : Nat} {change : Cell → Cell} {v : Value}
    (h : s.Grounded v) (ha : (s.update a change).Grounded (.pair a)) :
    (s.update a change).Grounded v := by
  induction h with
  | atom hv => exact .atom hv
  | @pair b hb _ _ ihfirst ihrest =>
    by_cases heq : b = a
    · rw [heq]
      exact ha
    · have hcell := cell_update_of_ne heq (s := s) change
      refine .pair (by simpa using hb) ?_ ?_
      · rw [hcell]
        exact ihfirst
      · rw [hcell]
        exact ihrest

/-! ## Ways -/

/-- From a value, one can come to another by looking into cells. -/
inductive Reaches (s : Store) (v : Value) : Value → Prop where
  | here : Reaches s v v
  | first {a : Nat} (h : Reaches s v (.pair a)) : Reaches s v (s.cell a).first
  | rest {a : Nat} (h : Reaches s v (.pair a)) : Reaches s v (s.cell a).rest

/-- What holds of a value, and of both halves of every cell of which it holds, holds of all that can
be come to from the value. -/
theorem Reaches.closed {s : Store} {v w : Value} {P : Value → Prop} (h : s.Reaches v w) (hv : P v)
    (hfirst : ∀ a, P (.pair a) → P (s.cell a).first)
    (hrest : ∀ a, P (.pair a) → P (s.cell a).rest) : P w := by
  induction h with
  | here => exact hv
  | first _ ih => exact hfirst _ ih
  | rest _ ih => exact hrest _ ih

end DynLisp.Store
