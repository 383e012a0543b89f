/-
  Proofs/Preservation.lean --- every operation on a memory keeps it valid.

  WHAT THIS FILE IS FOR.  For each operation there is one theorem: a valid memory
  and visible arguments give a valid memory and a visible result.  Where the
  operation is one of evaluation, the same theorem says that the memory `Evolves`.

  Most operations leave the chains of the global frame as they are, and for them
  the invariant is rebuilt in one place, `Valid.of_same_spine`.
-/
import DynLisp.Proofs.Layout
import DynLisp.Store.Content

set_option autoImplicit false

namespace DynLisp.Memory

/-! ## The chains of the global frame stay -/

/-- The chains of the global frame are the same in the two memories. -/
structure SameSpine (m m' : Memory) : Prop where
  globals : m'.environment.globals = m.environment.globals
  size_le : m.store.size ≤ m'.store.size
  key_rest : ∀ a ∈ m.keyCells, (m'.store.cell a).rest = (m.store.cell a).rest
  value_rest : ∀ a ∈ m.valueCells, (m'.store.cell a).rest = (m.store.cell a).rest

namespace SameSpine

variable {m m' : Memory} (hm : m.SameSpine m') (h : m.Valid)
include hm h

theorem keys : m'.store.Chain m'.environment.globals.symbols m.keyCells .nil := by
  rw [hm.globals]
  apply h.keys.congr
  intro a ha
  exact ⟨Nat.lt_of_lt_of_le (h.keys.lt_size a ha) hm.size_le, hm.key_rest a ha⟩

theorem values : m'.store.Chain m'.environment.globals.values m.valueCells .nil := by
  rw [hm.globals]
  apply h.values.congr
  intro a ha
  exact ⟨Nat.lt_of_lt_of_le (h.values.lt_size a ha) hm.size_le, hm.value_rest a ha⟩

theorem keyCells_eq : m'.keyCells = m.keyCells := (hm.keys h).links_eq

theorem valueCells_eq : m'.valueCells = m.valueCells := (hm.values h).links_eq

theorem visible_pair_iff (a : Nat) :
    m'.Visible (.pair a) ↔ a < m'.store.size ∧ a ∉ m.keyCells ∧ a ∉ m.valueCells := by
  unfold Visible
  rw [hm.keyCells_eq h, hm.valueCells_eq h]

theorem visible {v : Value} (hv : m.Visible v) : m'.Visible v := by
  cases v with
  | pair a =>
    exact (hm.visible_pair_iff h a).mpr ⟨Nat.lt_of_lt_of_le hv.1 hm.size_le, hv.2⟩
  | nil | number | string | symbol => trivial

theorem visible_iff_of_size_eq (hsize : m'.store.size = m.store.size) (v : Value) :
    m'.Visible v ↔ m.Visible v := by
  cases v with
  | pair a =>
    rw [hm.visible_pair_iff h a, hsize]
    exact Iff.rfl
  | nil | number | string | symbol => exact Iff.rfl

theorem globalKeys_eq (hfirst : ∀ a ∈ m.keyCells, (m'.store.cell a).first =
    (m.store.cell a).first) : m'.globalKeys = m.globalKeys := by
  unfold globalKeys
  rw [(hm.keys h).elements_eq, h.keys.elements_eq]
  exact List.map_congr_left hfirst

/-- With the chains of the global frame in place, what is left to be said is which cells change. -/
theorem spares (hcell : ∀ a < m.store.size, a ∉ m.valueCells → m'.store.cell a = m.store.cell a)
    (hrest : ∀ a < m.store.size, (m'.store.cell a).rest = (m.store.cell a).rest) :
    m.Spares m' := by
  refine ⟨hm.size_le, ?_, ?_, hcell, hrest⟩
  · intro a _
    rw [hm.keyCells_eq h]
  · intro a _
    rw [hm.valueCells_eq h]

/-- With the chains of the global frame in place, what is left of the invariant speaks of the cells
that can be seen. -/
theorem valid
    (hkey : ∀ a ∈ m.keyCells, m'.Visible (m'.store.cell a).first)
    (hvalue : ∀ a ∈ m.valueCells, m'.Visible (m'.store.cell a).first)
    (hcell : ∀ a, m'.Visible (.pair a) →
      m'.Visible (m'.store.cell a).first ∧ m'.Visible (m'.store.cell a).rest)
    (hgrounded : ∀ a, m'.Visible (.pair a) → m'.store.Grounded (.pair a))
    (hcalls : ∀ frame ∈ m'.environment.calls, m'.Visible frame.symbols ∧ m'.Visible frame.values) :
    m'.Valid := by
  have hkeys := hm.keyCells_eq h
  have hvalues := hm.valueCells_eq h
  constructor
  case keys => rw [hkeys]; exact hm.keys h
  case values => rw [hvalues]; exact hm.values h
  case paired => rw [hkeys, hvalues]; exact h.paired
  case apart => rw [hkeys, hvalues]; exact h.apart
  case key_visible => rw [hkeys]; exact hkey
  case value_visible => rw [hvalues]; exact hvalue
  case cell_visible => exact hcell
  case calls => exact hcalls
  case grounded =>
    intro v hv
    cases v with
    | pair a => exact hgrounded a hv
    | nil | number | string | symbol => exact .atom (by simp)

end SameSpine

/-! ## New cells -/

/-- There are more cells, and nothing else has changed. -/
structure Grows (m m' : Memory) : Prop where
  environment : m'.environment = m.environment
  size_le : m.store.size ≤ m'.store.size
  cell_eq : ∀ a, a < m.store.size → m'.store.cell a = m.store.cell a

namespace Grows

variable {m m' : Memory} (hm : m.Grows m') (h : m.Valid)
include hm h

theorem sameSpine : m.SameSpine m' where
  globals := congrArg Environment.globals hm.environment
  size_le := hm.size_le
  key_rest a ha := congrArg Cell.rest (hm.cell_eq a (h.keys.lt_size a ha))
  value_rest a ha := congrArg Cell.rest (hm.cell_eq a (h.values.lt_size a ha))

theorem visible {v : Value} (hv : m.Visible v) : m'.Visible v := (hm.sameSpine h).visible h hv

theorem new_visible {a : Nat} (ha : m.store.size ≤ a) (ha' : a < m'.store.size) :
    m'.Visible (.pair a) := by
  apply ((hm.sameSpine h).visible_pair_iff h a).mpr
  refine ⟨ha', ?_, ?_⟩
  · intro hkey
    exact absurd (h.keys.lt_size a hkey) (Nat.not_lt.mpr ha)
  · intro hvalue
    exact absurd (h.values.lt_size a hvalue) (Nat.not_lt.mpr ha)

theorem grounded {v : Value} (hv : m.Visible v) : m'.store.Grounded v :=
  h.grounded_congr
    (fun a ha => ⟨Nat.lt_of_lt_of_le ha.1 hm.size_le, hm.cell_eq a ha.1⟩) hv

/-- A memory with new cells is valid if the new cells are. -/
theorem valid
    (hnew : ∀ a, m.store.size ≤ a → a < m'.store.size →
      m'.Visible (m'.store.cell a).first ∧ m'.Visible (m'.store.cell a).rest ∧
        m'.store.Grounded (.pair a)) :
    m'.Valid := by
  have hspine := hm.sameSpine h
  have hold : ∀ a, m'.Visible (.pair a) → a < m.store.size → m.Visible (.pair a) := by
    intro a ha hlt
    exact ⟨hlt, ((hspine.visible_pair_iff h a).mp ha).2⟩
  refine hspine.valid h ?_ ?_ ?_ ?_ ?_
  · intro a ha
    rw [hm.cell_eq a (h.keys.lt_size a ha)]
    exact hm.visible h (h.key_visible a ha)
  · intro a ha
    rw [hm.cell_eq a (h.values.lt_size a ha)]
    exact hm.visible h (h.value_visible a ha)
  · intro a ha
    rcases Nat.lt_or_ge a m.store.size with hlt | hge
    · obtain ⟨hfirst, hrest⟩ := h.cell_visible a (hold a ha hlt)
      rw [hm.cell_eq a hlt]
      exact ⟨hm.visible h hfirst, hm.visible h hrest⟩
    · obtain ⟨hfirst, hrest, -⟩ := hnew a hge ha.1
      exact ⟨hfirst, hrest⟩
  · intro a ha
    rcases Nat.lt_or_ge a m.store.size with hlt | hge
    · exact hm.grounded h (hold a ha hlt)
    · exact (hnew a hge ha.1).2.2
  · intro frame hframe
    rw [hm.environment] at hframe
    obtain ⟨hsymbols, hvalues⟩ := h.calls frame hframe
    exact ⟨hm.visible h hsymbols, hm.visible h hvalues⟩

theorem evolves : m.Evolves m' where
  toSpares := (hm.sameSpine h).spares h (fun a ha _ => hm.cell_eq a ha)
    fun a ha => congrArg Cell.rest (hm.cell_eq a ha)
  calls := congrArg Environment.calls hm.environment
  keys := by
    have hkeys : m'.globalKeys = m.globalKeys := (hm.sameSpine h).globalKeys_eq h fun a ha =>
      congrArg Cell.first (hm.cell_eq a (h.keys.lt_size a ha))
    exact ⟨[], by rw [hkeys, List.nil_append]⟩

end Grows

theorem Grows.trans {m m' m'' : Memory} (h : m.Grows m') (h' : m'.Grows m'') : m.Grows m'' where
  environment := h'.environment.trans h.environment
  size_le := Nat.le_trans h.size_le h'.size_le
  cell_eq a ha :=
    (h'.cell_eq a (Nat.lt_of_lt_of_le ha h.size_le)).trans (h.cell_eq a ha)

theorem grows_appended (m : Memory) (first rest : Value) :
    m.Grows { m with store := m.store.appended first rest } :=
  ⟨rfl, by simp, fun _ ha => Store.cell_appended_of_lt ha first rest⟩

/-- A memory with one more cell that holds what can be seen. -/
theorem Valid.appended {m : Memory} (h : m.Valid) {first rest : Value} (hfirst : m.Visible first)
    (hrest : m.Visible rest) :
    m.Yields { m with store := m.store.appended first rest } (.pair m.store.size) := by
  have hgrows := m.grows_appended first rest
  refine ⟨hgrows.valid h ?_, hgrows.evolves h, hgrows.new_visible h (Nat.le_refl _) (by simp)⟩
  intro a hge hlt
  obtain rfl : a = m.store.size := by
    have hlt' : a < m.store.size + 1 := by simpa using hlt
    omega
  have hcell := Store.cell_appended_size m.store first rest
  refine ⟨?_, ?_, .pair hlt ?_ ?_⟩
  · simpa only [hcell] using hgrows.visible h hfirst
  · simpa only [hcell] using hgrows.visible h hrest
  · simpa only [hcell] using hgrows.grounded h hfirst
  · simpa only [hcell] using hgrows.grounded h hrest

/-- From the end of a new list to its front, each cell of it is a finite tree. -/
theorem grounded_of_built {s s' : Store} {items : List Value} {builder : Store.Builder}
    (hbuilt : s.Built items builder s') (hitems : ∀ v ∈ items, s'.Grounded v) (i : Nat)
    (hi : i < items.length) : s'.Grounded (.pair (s.size + i)) := by
  have hcell := hbuilt.cell_new i hi
  have hlt : s.size + i < s'.size := by
    rw [hbuilt.size_eq]
    omega
  refine .pair hlt ?_ ?_
  · rw [hcell]
    exact hitems _ (List.getElem_mem hi)
  · rw [hcell]
    by_cases hmore : i + 1 < items.length
    · simp only [hmore, if_true]
      exact grounded_of_built hbuilt hitems (i + 1) hmore
    · simp only [hmore, if_false]
      exact .atom (by simp)
termination_by items.length - i

theorem grows_list (m : Memory) (items : List Value) :
    m.Grows { m with store := ((Store.list items).run m.store).2 } := by
  obtain ⟨builder, hbuilt, -⟩ := Store.built_list m.store items
  refine ⟨rfl, ?_, hbuilt.cell_old⟩
  rw [hbuilt.size_eq]
  exact Nat.le_add_right _ _

/-- A memory with a new list of what can be seen. -/
theorem Valid.list {m : Memory} (h : m.Valid) {items : List Value}
    (hitems : ∀ v ∈ items, m.Visible v) :
    m.Yields { m with store := ((Store.list items).run m.store).2 }
      ((Store.list items).run m.store).1 := by
  obtain ⟨builder, hbuilt, hresult⟩ := Store.built_list m.store items
  have hsize := hbuilt.size_eq
  have hgrows := m.grows_list items
  have hnew : ∀ i, i < items.length →
      Visible { m with store := ((Store.list items).run m.store).2 }
        (.pair (m.store.size + i)) := by
    intro i hi
    exact hgrows.new_visible h (Nat.le_add_right _ _) (by simp only [hsize]; omega)
  refine ⟨hgrows.valid h ?_, hgrows.evolves h, ?_⟩
  · intro a hge hlt
    obtain ⟨i, rfl⟩ := Nat.exists_eq_add_of_le hge
    have hi : i < items.length := by
      simp only [hsize] at hlt
      omega
    have hcell := hbuilt.cell_new i hi
    refine ⟨?_, ?_, grounded_of_built hbuilt
      (fun v hv => hgrows.grounded h (hitems v hv)) i hi⟩
    · simp only [hcell]
      exact hgrows.visible h (hitems _ (List.getElem_mem hi))
    · simp only [hcell]
      split
      · rename_i hmore
        exact hnew (i + 1) hmore
      · trivial
  · rw [hresult, hbuilt.builder_eq]
    by_cases hempty : items = []
    · rw [if_pos hempty]
      trivial
    · rw [if_neg hempty]
      exact hnew 0 (List.length_pos_iff.mpr hempty)

/-! ## Global bindings -/

theorem sameSpine_setFirst (m : Memory) (a : Nat) (v : Value) :
    m.SameSpine { m with store := m.store.setFirst a v } :=
  ⟨rfl, by simp, fun b _ => Store.rest_setFirst _ a v b, fun b _ => Store.rest_setFirst _ a v b⟩

/-- A memory with another value in one of the cells that hold global values. -/
theorem Valid.overwritten {m : Memory} (h : m.Valid) {a : Nat} (ha : a ∈ m.valueCells) {v : Value}
    (hv : m.Visible v) :
    Valid { m with store := m.store.setFirst a v } ∧
      m.Evolves { m with store := m.store.setFirst a v } := by
  have hother : ∀ b, b ≠ a → (m.store.setFirst a v).cell b = m.store.cell b :=
    fun b hb => Store.cell_setFirst_of_ne hb v
  have hspine := m.sameSpine_setFirst a v
  have hseen := hspine.visible_iff_of_size_eq h (Store.size_setFirst _ a v)
  have hcell : ∀ b, m.Visible (.pair b) → (m.store.setFirst a v).cell b = m.store.cell b :=
    fun b hb => hother b fun heq => hb.2.2 (heq ▸ ha)
  have hkey : ∀ b ∈ m.keyCells, (m.store.setFirst a v).cell b = m.store.cell b :=
    fun b hb => hother b fun heq => h.apart b hb (heq ▸ ha)
  constructor
  · refine hspine.valid h ?_ ?_ ?_ ?_ ?_
    · intro b hb
      rw [hseen, hkey b hb]
      exact h.key_visible b hb
    · intro b hb
      rw [hseen]
      by_cases heq : b = a
      · subst heq
        rw [Store.cell_setFirst_self (h.values.lt_size b ha)]
        exact hv
      · rw [hother b heq]
        exact h.value_visible b hb
    · intro b hb
      have hb' := (hseen _).mp hb
      rw [hcell b hb', hseen, hseen]
      exact h.cell_visible b hb'
    · intro b hb
      refine h.grounded_congr ?_ ((hseen _).mp hb)
      intro c hc
      rw [Store.size_setFirst]
      exact ⟨hc.1, hcell c hc⟩
    · intro frame hframe
      rw [hseen, hseen]
      exact h.calls frame hframe
  · have hkeys := hspine.globalKeys_eq h fun b hb => congrArg Cell.first (hkey b hb)
    have hspares := hspine.spares h (fun b _ hvalue => hother b fun heq => hvalue (heq ▸ ha))
      fun b _ => Store.rest_setFirst _ a v b
    exact ⟨hspares, rfl, [], by rw [hkeys, List.nil_append]⟩

section Prepended

variable {m : Memory} (key v : Value)

@[simp] theorem size_prepended : (m.prepended key v).store.size = m.store.size + 2 := by
  simp [prepended]

theorem cell_prepended_of_lt {a : Nat} (ha : a < m.store.size) :
    (m.prepended key v).store.cell a = m.store.cell a := by
  have ha' : a < (m.store.appended key m.environment.globals.symbols).size := by
    rw [Store.size_appended]
    exact Nat.lt_succ_of_lt ha
  show Store.cell (Store.appended _ v _) a = _
  rw [Store.cell_appended_of_lt ha', Store.cell_appended_of_lt ha]

theorem cell_prepended_key :
    (m.prepended key v).store.cell m.store.size = ⟨key, m.environment.globals.symbols⟩ := by
  have hlt : m.store.size < (m.store.appended key m.environment.globals.symbols).size := by simp
  show Store.cell (Store.appended _ v _) _ = _
  rw [Store.cell_appended_of_lt hlt, Store.cell_appended_size]

theorem cell_prepended_value :
    (m.prepended key v).store.cell (m.store.size + 1) = ⟨v, m.environment.globals.values⟩ := by
  have hlast := Store.cell_appended_size (m.store.appended key m.environment.globals.symbols) v
    m.environment.globals.values
  rwa [Store.size_appended] at hlast

variable (h : m.Valid)
include h

/-- The cells of the global frame after a new binding has been put in front. -/
theorem Valid.prepended_chains :
    (m.prepended key v).store.Chain (m.prepended key v).environment.globals.symbols
        (m.store.size :: m.keyCells) .nil ∧
      (m.prepended key v).store.Chain (m.prepended key v).environment.globals.values
        ((m.store.size + 1) :: m.valueCells) .nil := by
  have hold : ∀ a, a < m.store.size → a < (m.prepended key v).store.size ∧
      ((m.prepended key v).store.cell a).rest = (m.store.cell a).rest := by
    intro a ha
    rw [cell_prepended_of_lt key v ha, size_prepended]
    exact ⟨by omega, rfl⟩
  have hglobals : (m.prepended key v).environment.globals =
      ⟨.pair m.store.size, .pair (m.store.size + 1)⟩ := by
    simp [Memory.prepended]
  rw [hglobals]
  refine ⟨.link (by simp) ?_, .link (by simp) ?_⟩
  · rw [cell_prepended_key]
    exact h.keys.congr fun a ha => hold a (h.keys.lt_size a ha)
  · rw [cell_prepended_value]
    exact h.values.congr fun a ha => hold a (h.values.lt_size a ha)

theorem Valid.keyCells_prepended : (m.prepended key v).keyCells = m.store.size :: m.keyCells :=
  (h.prepended_chains key v).1.links_eq

theorem Valid.valueCells_prepended :
    (m.prepended key v).valueCells = (m.store.size + 1) :: m.valueCells :=
  (h.prepended_chains key v).2.links_eq

/-- The two new cells belong to the global frame, so a program sees what it saw before. -/
theorem Valid.visible_prepended_iff (w : Value) :
    (m.prepended key v).Visible w ↔ m.Visible w := by
  cases w with
  | nil | number | string | symbol => exact Iff.rfl
  | pair a =>
    simp only [Visible, h.keyCells_prepended key v, h.valueCells_prepended key v, size_prepended,
      List.mem_cons, not_or]
    constructor
    · rintro ⟨hlt, ⟨hne, hkey⟩, hne', hvalue⟩
      exact ⟨by omega, hkey, hvalue⟩
    · rintro ⟨hlt, hkey, hvalue⟩
      exact ⟨by omega, ⟨by omega, hkey⟩, by omega, hvalue⟩

theorem Valid.globalKeys_prepended : (m.prepended key v).globalKeys = key :: m.globalKeys := by
  have hchain := (h.prepended_chains key v).1
  unfold globalKeys
  rw [hchain.elements_eq, h.keys.elements_eq, List.map_cons, cell_prepended_key]
  refine congrArg (key :: ·) (List.map_congr_left fun a ha => ?_)
  rw [cell_prepended_of_lt key v (h.keys.lt_size a ha)]

theorem Valid.spares_prepended : m.Spares (m.prepended key v) where
  size_le := by
    rw [size_prepended]
    exact Nat.le_add_right _ 2
  mem_keyCells a ha := by
    rw [h.keyCells_prepended key v, List.mem_cons, or_iff_right (Nat.ne_of_lt ha)]
  mem_valueCells a ha := by
    rw [h.valueCells_prepended key v, List.mem_cons, or_iff_right (by omega)]
  cell_eq a ha _ := cell_prepended_of_lt key v ha
  rest_eq a ha := congrArg Cell.rest (cell_prepended_of_lt key v ha)

theorem Valid.evolves_prepended : m.Evolves (m.prepended key v) where
  toSpares := h.spares_prepended key v
  calls := rfl
  keys := by
    rw [h.globalKeys_prepended key v]
    exact List.suffix_cons key m.globalKeys

/-- A memory with a new binding in front of all others. -/
theorem Valid.prepended (hkey : m.Visible key) (hv : m.Visible v) :
    (m.prepended key v).Valid := by
  have hkeys := h.keyCells_prepended key v
  have hvalues := h.valueCells_prepended key v
  have hseen := h.visible_prepended_iff key v
  have hcell : ∀ a, m.Visible (.pair a) → (m.prepended key v).store.cell a = m.store.cell a :=
    fun a ha => cell_prepended_of_lt key v ha.1
  constructor
  case keys =>
    rw [hkeys]
    exact (h.prepended_chains key v).1
  case values =>
    rw [hvalues]
    exact (h.prepended_chains key v).2
  case paired =>
    rw [hkeys, hvalues, List.length_cons, List.length_cons, h.paired]
  case apart =>
    rw [hkeys, hvalues]
    intro a ha hvalue
    have hkeysize := h.keys.lt_size a
    have hvaluesize := h.values.lt_size a
    rcases List.mem_cons.mp ha with rfl | ha <;> rcases List.mem_cons.mp hvalue with heq | hvalue
    · omega
    · exact absurd (hvaluesize hvalue) (Nat.lt_irrefl _)
    · have hlt := hkeysize ha
      omega
    · exact h.apart a ha hvalue
  case key_visible =>
    rw [hkeys]
    intro a ha
    rw [hseen]
    rcases List.mem_cons.mp ha with rfl | ha
    · rw [cell_prepended_key]
      exact hkey
    · rw [cell_prepended_of_lt key v (h.keys.lt_size a ha)]
      exact h.key_visible a ha
  case value_visible =>
    rw [hvalues]
    intro a ha
    rw [hseen]
    rcases List.mem_cons.mp ha with rfl | ha
    · rw [cell_prepended_value]
      exact hv
    · rw [cell_prepended_of_lt key v (h.values.lt_size a ha)]
      exact h.value_visible a ha
  case cell_visible =>
    intro a ha
    have ha' := (hseen _).mp ha
    rw [hcell a ha', hseen, hseen]
    exact h.cell_visible a ha'
  case grounded =>
    intro w hw
    refine h.grounded_congr (fun a ha => ⟨?_, hcell a ha⟩) ((hseen w).mp hw)
    rw [size_prepended]
    exact Nat.lt_add_right 2 ha.1
  case calls =>
    intro frame hframe
    rw [hseen, hseen]
    exact h.calls frame hframe

end Prepended

/-- Binding a key keeps a memory valid, and puts a new key in front of the others if any. -/
theorem Valid.defined {m : Memory} (h : m.Valid) {key v : Value} (hkey : m.Visible key)
    (hv : m.Visible v) : m.Yields (m.defined key v) v := by
  unfold Memory.defined
  cases hslot : m.globalSlot? key with
  | none =>
    have hevolves := h.evolves_prepended key v
    exact ⟨h.prepended key v hkey hv, hevolves, hevolves.visible hv⟩
  | some a =>
    obtain ⟨hvalid, hevolves⟩ := h.overwritten (mem_links_of_slot? hslot) hv
    exact ⟨hvalid, hevolves, hevolves.visible hv⟩

/-! ## Calls -/

/-- The memory with other calls going on. -/
def calling (m : Memory) (calls : List Frame) : Memory :=
  { m with environment := { m.environment with calls } }

/-- Of the invariant, only what it says of the frames of calls is about those. -/
theorem Valid.calling {m : Memory} (h : m.Valid) {calls : List Frame}
    (hcalls : ∀ frame ∈ calls, m.Visible frame.symbols ∧ m.Visible frame.values) :
    (m.calling calls).Valid where
  keys := h.keys
  values := h.values
  paired := h.paired
  apart := h.apart
  key_visible := h.key_visible
  value_visible := h.value_visible
  cell_visible := h.cell_visible
  grounded := h.grounded
  calls := hcalls

/-- A memory inside a call that binds what can be seen. -/
theorem Valid.push {m : Memory} (h : m.Valid) {parameters arguments : Value}
    (hparameters : m.Visible parameters) (harguments : m.Visible arguments) :
    (m.push parameters arguments).Valid :=
  h.calling (List.forall_mem_cons.mpr ⟨⟨hparameters, harguments⟩, h.calls⟩)

/-- A memory outside the innermost call. -/
theorem Valid.pop {m : Memory} (h : m.Valid) : m.pop.Valid :=
  h.calling fun frame hframe => h.calls frame (List.mem_of_mem_tail hframe)

/-- What a call makes of the memory around it. -/
theorem Evolves.pop {m m' : Memory} {parameters arguments : Value}
    (h : (m.push parameters arguments).Evolves m') : m.Evolves m'.pop where
  calls := by
    have hcalls : m'.pop.environment.calls = m'.environment.calls.tail := rfl
    rw [hcalls, h.calls]
    rfl
  toSpares := ⟨h.size_le, h.mem_keyCells, h.mem_valueCells, h.cell_eq, h.rest_eq⟩
  keys := h.keys

/-! ## What a host makes -/

/-- A memory with nothing in it is valid. -/
theorem valid_empty : Memory.empty.Valid := by
  have hchain : Memory.empty.store.Chain .nil [] .nil := .stop (by simp)
  have hkeys : Memory.empty.keyCells = [] := rfl
  have hvalues : Memory.empty.valueCells = [] := rfl
  have hunseen : ∀ a, ¬ Memory.empty.Visible (.pair a) := fun a ha => Nat.not_lt_zero a ha.1
  constructor
  case keys => exact hchain
  case values => exact hchain
  case paired => rfl
  case apart | key_visible =>
    rw [hkeys]
    simp
  case value_visible =>
    rw [hvalues]
    simp
  case cell_visible => exact fun a ha => absurd ha (hunseen a)
  case grounded =>
    intro v hv
    apply Store.Grounded.atom
    intro a heq
    exact hunseen a (heq ▸ hv)
  case calls => exact fun frame hframe => absurd hframe List.not_mem_nil

/-- A memory in which only the next serial number is another. -/
theorem Valid.renumbered {m : Memory} (h : m.Valid) (serials : Nat) {v : Value}
    (hv : m.Visible v) : m.Yields { m with store := { m.store with serials } } v := by
  have hgrows : m.Grows { m with store := { m.store with serials } } :=
    ⟨rfl, Nat.le_refl _, fun _ _ => rfl⟩
  have hevolves := hgrows.evolves h
  refine ⟨hgrows.valid h ?_, hevolves, hevolves.visible hv⟩
  intro a hge hlt
  exact absurd hlt (Nat.not_lt.mpr hge)

/-- A memory with a value that shows a datum. -/
theorem Valid.load {m : Memory} (h : m.Valid) (datum : Datum) :
    m.Yields { m with store := ((Store.load datum).run m.store).2 }
      ((Store.load datum).run m.store).1 := by
  induction datum generalizing m with
  | nil | number => exact .here h trivial
  | string | symbol => exact h.renumbered _ trivial
  | cons first rest ihfirst ihrest =>
    have hfirst := ihfirst h
    have hrest := ihrest hfirst.valid
    have hpair := hrest.valid.appended (hrest.evolves.visible hfirst.visible) hrest.visible
    exact hpair.after (hfirst.evolves.trans hrest.evolves)

/-- No cell that a program can see is part of the global frame. -/
theorem sameSpine_update {m : Memory} {a : Nat} (ha : m.Visible (.pair a)) (change : Cell → Cell) :
    m.SameSpine { m with store := m.store.update a change } := by
  have hother : ∀ b, b ≠ a → (m.store.update a change).cell b = m.store.cell b :=
    fun b hb => Store.cell_update_of_ne hb change
  refine ⟨rfl, by simp, ?_, ?_⟩
  · exact fun b hb => congrArg Cell.rest (hother b fun heq => ha.2.1 (heq ▸ hb))
  · exact fun b hb => congrArg Cell.rest (hother b fun heq => ha.2.2 (heq ▸ hb))

theorem Valid.globalKeys_update {m : Memory} (h : m.Valid) {a : Nat} (ha : m.Visible (.pair a))
    (change : Cell → Cell) :
    globalKeys { m with store := m.store.update a change } = m.globalKeys := by
  apply (sameSpine_update ha change).globalKeys_eq h
  intro b hb
  have hne : b ≠ a := fun heq => ha.2.1 (heq ▸ hb)
  exact congrArg Cell.first (Store.cell_update_of_ne hne change)

/-- A memory with another cell where a program can see it, as long as there is no cycle in it. -/
theorem Valid.changed {m : Memory} (h : m.Valid) {a : Nat} {change : Cell → Cell}
    (ha : m.Visible (.pair a)) (hfirst : m.Visible (change (m.store.cell a)).first)
    (hrest : m.Visible (change (m.store.cell a)).rest)
    (hgrounded : (m.store.update a change).Grounded (.pair a)) :
    Valid { m with store := m.store.update a change } ∧
      ∀ v, m.Visible v → Visible { m with store := m.store.update a change } v := by
  have hother : ∀ b, b ≠ a → (m.store.update a change).cell b = m.store.cell b :=
    fun b hb => Store.cell_update_of_ne hb change
  have hkey : ∀ b ∈ m.keyCells, (m.store.update a change).cell b = m.store.cell b :=
    fun b hb => hother b fun heq => ha.2.1 (heq ▸ hb)
  have hvalue : ∀ b ∈ m.valueCells, (m.store.update a change).cell b = m.store.cell b :=
    fun b hb => hother b fun heq => ha.2.2 (heq ▸ hb)
  have hspine := sameSpine_update ha change
  have hseen := hspine.visible_iff_of_size_eq h (Store.size_update _ a change)
  refine ⟨hspine.valid h ?_ ?_ ?_ ?_ ?_, fun v hv => (hseen v).mpr hv⟩
  · intro b hb
    rw [hseen, hkey b hb]
    exact h.key_visible b hb
  · intro b hb
    rw [hseen, hvalue b hb]
    exact h.value_visible b hb
  · intro b hb
    rw [hseen, hseen]
    by_cases heq : b = a
    · subst heq
      rw [Store.cell_update_self ha.1]
      exact ⟨hfirst, hrest⟩
    · rw [hother b heq]
      exact h.cell_visible b ((hseen _).mp hb)
  · -- Every way into the changed cell goes on from there without a cycle.
    intro b hb
    exact (h.grounded _ ((hseen _).mp hb)).of_update hgrounded
  · intro frame hframe
    rw [hseen, hseen]
    exact h.calls frame hframe

end DynLisp.Memory
