/-
  Proofs/Layout.lean --- what a memory looks like from inside.

  WHAT THIS FILE IS FOR.  The global frame is two chains of cells, one of keys and
  one of values, and defining a key again writes into the second of them.  All
  else that the cells hold belongs to the program and shares structure freely.
  What keeps the two apart is that nothing outside leads into the chains of the
  global frame: no cell, no frame of a call, no value that a program can hold.

  THE INVARIANT.  `Memory.Valid` says so, and that nothing has a cycle.  A value
  is `Visible` if its cell, should it have one, exists and is not one of those of
  the global frame.

  WHAT IS KEPT.  `Memory.Spares` says which cells may change: those that hold global
  values, and no others.  `Memory.Evolves` adds what evaluation may make of the
  frames: those of the calls stay, and the global one gets keys at its front only.
  `Memory.Yields` adds what is wanted of its result.
-/
import DynLisp.Proofs.Cells
import DynLisp.Proofs.Chains

set_option autoImplicit false

namespace DynLisp.Memory

/-! ## The cells of the global frame -/

/-- The cells that hold the keys of the global frame, the newest first. -/
def keyCells (m : Memory) : List Nat := m.store.links m.environment.globals.symbols

/-- The cells that hold the values of the global frame, the newest first. -/
def valueCells (m : Memory) : List Nat := m.store.links m.environment.globals.values

/-- The keys of the global frame, the newest first. -/
def globalKeys (m : Memory) : List Value := m.store.elements m.environment.globals.symbols

/-- A program can hold the value: its cell, if it has one, exists and is none of those of the
global frame. -/
def Visible (m : Memory) : Value → Prop
  | .pair a => a < m.store.size ∧ a ∉ m.keyCells ∧ a ∉ m.valueCells
  | _ => True

instance (m : Memory) (v : Value) : Decidable (m.Visible v) := by
  cases v <;> unfold Visible <;> infer_instance

/-! ## The invariant -/

/-- The global frame has its cells for itself, and nothing has a cycle. -/
structure Valid (m : Memory) : Prop where
  keys : m.store.Chain m.environment.globals.symbols m.keyCells .nil
  values : m.store.Chain m.environment.globals.values m.valueCells .nil
  paired : m.keyCells.length = m.valueCells.length
  apart : ∀ a ∈ m.keyCells, a ∉ m.valueCells
  key_visible : ∀ a ∈ m.keyCells, m.Visible (m.store.cell a).first
  value_visible : ∀ a ∈ m.valueCells, m.Visible (m.store.cell a).first
  cell_visible : ∀ a, m.Visible (.pair a) →
    m.Visible (m.store.cell a).first ∧ m.Visible (m.store.cell a).rest
  grounded : ∀ v, m.Visible v → m.store.Grounded v
  calls : ∀ frame ∈ m.environment.calls, m.Visible frame.symbols ∧ m.Visible frame.values

/-- What evaluation may make of the cells of a memory: there may be new ones, some of which join the
global frame, and the cells that hold global values may get other values.  All else stays. -/
structure Spares (m m' : Memory) : Prop where
  size_le : m.store.size ≤ m'.store.size
  mem_keyCells : ∀ a < m.store.size, a ∈ m'.keyCells ↔ a ∈ m.keyCells
  mem_valueCells : ∀ a < m.store.size, a ∈ m'.valueCells ↔ a ∈ m.valueCells
  cell_eq : ∀ a < m.store.size, a ∉ m.valueCells → m'.store.cell a = m.store.cell a
  rest_eq : ∀ a < m.store.size, (m'.store.cell a).rest = (m.store.cell a).rest

namespace Spares

variable {m m' m'' : Memory}

theorem refl (m : Memory) : m.Spares m :=
  ⟨Nat.le_refl _, fun _ _ => Iff.rfl, fun _ _ => Iff.rfl, fun _ _ _ => rfl, fun _ _ => rfl⟩

theorem trans (h : m.Spares m') (h' : m'.Spares m'') : m.Spares m'' := by
  have hlt : ∀ a < m.store.size, a < m'.store.size :=
    fun a ha => Nat.lt_of_lt_of_le ha h.size_le
  constructor
  case size_le => exact Nat.le_trans h.size_le h'.size_le
  case mem_keyCells =>
    exact fun a ha => (h'.mem_keyCells a (hlt a ha)).trans (h.mem_keyCells a ha)
  case mem_valueCells =>
    exact fun a ha => (h'.mem_valueCells a (hlt a ha)).trans (h.mem_valueCells a ha)
  case cell_eq =>
    intro a ha hvalue
    have hvalue' : a ∉ m'.valueCells := fun hmem => hvalue ((h.mem_valueCells a ha).mp hmem)
    exact (h'.cell_eq a (hlt a ha) hvalue').trans (h.cell_eq a ha hvalue)
  case rest_eq => exact fun a ha => (h'.rest_eq a (hlt a ha)).trans (h.rest_eq a ha)

/-- What can be seen is none of what may change. -/
theorem cells (h : m.Spares m') (a : Nat) (ha : m.Visible (.pair a)) :
    m'.Visible (.pair a) ∧ m'.store.cell a = m.store.cell a := by
  obtain ⟨hlt, hkey, hvalue⟩ := ha
  refine ⟨⟨Nat.lt_of_lt_of_le hlt h.size_le, ?_, ?_⟩, h.cell_eq a hlt hvalue⟩
  · exact fun hmem => hkey ((h.mem_keyCells a hlt).mp hmem)
  · exact fun hmem => hvalue ((h.mem_valueCells a hlt).mp hmem)

theorem visible (h : m.Spares m') {v : Value} (hv : m.Visible v) : m'.Visible v := by
  cases v with
  | pair a => exact (h.cells a hv).1
  | nil | number | string | symbol => trivial

end Spares

/-- What evaluation may make of a memory. -/
structure Evolves (m m' : Memory) : Prop extends Spares m m' where
  calls : m'.environment.calls = m.environment.calls
  keys : m.globalKeys <:+ m'.globalKeys

namespace Evolves

variable {m m' m'' : Memory}

theorem refl (m : Memory) : m.Evolves m := ⟨.refl m, rfl, List.suffix_rfl⟩

theorem trans (h : m.Evolves m') (h' : m'.Evolves m'') : m.Evolves m'' :=
  ⟨h.toSpares.trans h'.toSpares, h'.calls.trans h.calls, h.keys.trans h'.keys⟩

end Evolves

/-- A memory that has become another one, and has given a value that a program can hold there. -/
structure Yields (m m' : Memory) (v : Value) : Prop where
  valid : m'.Valid
  evolves : m.Evolves m'
  visible : m'.Visible v

namespace Yields

variable {m m' m'' : Memory} {v : Value}

theorem here (h : m.Valid) (hv : m.Visible v) : m.Yields m v := ⟨h, .refl m, hv⟩

theorem after (h' : m'.Yields m'' v) (h : m.Evolves m') : m.Yields m'' v :=
  ⟨h'.valid, h.trans h'.evolves, h'.visible⟩

end Yields

/-! ## What can be seen from what can be seen -/

namespace Valid

variable {m : Memory}

theorem first_visible (h : m.Valid) {v : Value} (hv : m.Visible v) :
    m.Visible (m.store.first v) := by
  cases v with
  | pair a => exact (h.cell_visible a hv).1
  | nil | number | string | symbol => trivial

theorem rest_visible (h : m.Valid) {v : Value} (hv : m.Visible v) :
    m.Visible (m.store.rest v) := by
  cases v with
  | pair a => exact (h.cell_visible a hv).2
  | nil | number | string | symbol => trivial

theorem chain (h : m.Valid) {v : Value} (hv : m.Visible v) :
    m.store.Chain v (m.store.links v) (m.store.tail v) := by
  obtain ⟨links, last, hchain⟩ := (h.grounded v hv).chain
  rw [hchain.links_eq, hchain.tail_eq]
  exact hchain

theorem visible_of_chain (h : m.Valid) {v last : Value} {links : List Nat}
    (hchain : m.store.Chain v links last) (hv : m.Visible v) :
    ∀ a ∈ links, m.Visible (.pair a) :=
  hchain.forall_links (fun a ha => (h.cell_visible a ha).2) hv

theorem link_visible (h : m.Valid) {v : Value} (hv : m.Visible v) :
    ∀ a ∈ m.store.links v, m.Visible (.pair a) := h.visible_of_chain (h.chain hv) hv

theorem element_visible (h : m.Valid) {v : Value} (hv : m.Visible v) :
    ∀ item ∈ m.store.elements v, m.Visible item := by
  intro item hitem
  obtain ⟨a, ha, rfl⟩ := List.mem_map.mp hitem
  exact (h.cell_visible a (h.link_visible hv a ha)).1

/-- The elements of a list can be come to from it. -/
theorem reaches_element (h : m.Valid) {v item : Value} (hv : m.Visible v)
    (hitem : item ∈ m.store.elements v) : m.store.Reaches v item := by
  obtain ⟨a, ha, rfl⟩ := List.mem_map.mp hitem
  have hlinks : ∀ b ∈ m.store.links v, m.store.Reaches v (.pair b) :=
    (h.chain hv).forall_links (fun _ hb => hb.rest) .here
  exact (hlinks a ha).first

theorem visible_of_reaches (h : m.Valid) {v w : Value} (hv : m.Visible v)
    (hw : m.store.Reaches v w) : m.Visible w :=
  hw.closed hv (fun a ha => (h.cell_visible a ha).1) fun a ha => (h.cell_visible a ha).2

end Valid

/-- The value is a key that some frame binds, or what some frame binds a key to. -/
def Binds (m : Memory) (v : Value) : Prop :=
  ∃ frame ∈ m.environment.calls ++ [m.environment.globals], ∃ binding ∈ frame.bindings m.store,
    v = binding.1 ∨ v = binding.2

theorem binds_of_mem {m : Memory} {frame : Frame} {binding : Value × Value}
    (hframe : frame ∈ m.environment.calls ++ [m.environment.globals])
    (hbinding : binding ∈ frame.bindings m.store) : m.Binds binding.1 ∧ m.Binds binding.2 :=
  ⟨⟨frame, hframe, binding, hbinding, .inl rfl⟩, ⟨frame, hframe, binding, hbinding, .inr rfl⟩⟩

theorem binds_of_mem_globalBindings {m : Memory} {binding : Value × Value}
    (hbinding : binding ∈ m.globalBindings) : m.Binds binding.1 ∧ m.Binds binding.2 :=
  binds_of_mem (List.mem_append_right _ (List.mem_singleton_self _)) hbinding

/-- What frames bind can be held by a program, though the cells of the global frame can not. -/
theorem Valid.visible_of_binds {m : Memory} (h : m.Valid) {v : Value} (hv : m.Binds v) :
    m.Visible v := by
  obtain ⟨frame, hframe, ⟨key, bound⟩, hbinding, hv⟩ := hv
  obtain ⟨hkey, hbound⟩ := List.of_mem_zip hbinding
  rcases List.mem_append.mp hframe with hcall | hglobal
  · obtain ⟨hsymbols, hvalues⟩ := h.calls frame hcall
    rcases hv with rfl | rfl
    · exact h.element_visible hsymbols _ hkey
    · exact h.element_visible hvalues _ hbound
  · rw [List.mem_singleton.mp hglobal] at hkey hbound
    rcases hv with rfl | rfl
    · obtain ⟨a, ha, rfl⟩ := List.mem_map.mp hkey
      exact h.key_visible a ha
    · obtain ⟨a, ha, rfl⟩ := List.mem_map.mp hbound
      exact h.value_visible a ha

theorem mem_links_of_slot? {frame : Frame} {s : Store} {key : Value} {a : Nat}
    (h : frame.slot? s key = some a) : a ∈ s.links frame.values := by
  obtain ⟨slot, hfind, rfl⟩ := Option.map_eq_some_iff.mp h
  exact (List.of_mem_zip (List.mem_of_find?_eq_some hfind)).2

/-- What a key is bound to can be held by a program. -/
theorem Valid.lookup_visible {m : Memory} (h : m.Valid) {key v : Value}
    (hlookup : m.lookup key = some v) : m.Visible v := by
  obtain ⟨frame, hframe, hbound⟩ := List.exists_of_findSome?_eq_some hlookup
  obtain ⟨a, hslot, rfl⟩ := Option.map_eq_some_iff.mp hbound
  have ha := mem_links_of_slot? hslot
  rcases List.mem_append.mp hframe with hcall | hglobal
  · exact (h.cell_visible a (h.link_visible (h.calls frame hcall).2 a ha)).1
  · rw [List.mem_singleton.mp hglobal] at ha
    exact h.value_visible a ha

/-! ## What stays as it was -/

section Stable

variable {m m' : Memory} (h : m.Valid) (hm : m.Spares m')
include h hm

theorem Spares.chain {v last : Value} {links : List Nat} (hchain : m.store.Chain v links last)
    (hv : m.Visible v) : m'.store.Chain v links last := by
  have hlinks := h.visible_of_chain hchain hv
  apply hchain.congr
  intro a ha
  obtain ⟨ha', hcell⟩ := hm.cells a (hlinks a ha)
  exact ⟨ha'.1, congrArg Cell.rest hcell⟩

theorem Spares.links_eq {v : Value} (hv : m.Visible v) : m'.store.links v = m.store.links v :=
  (hm.chain h (h.chain hv) hv).links_eq

theorem Spares.tail_eq {v : Value} (hv : m.Visible v) : m'.store.tail v = m.store.tail v :=
  (hm.chain h (h.chain hv) hv).tail_eq

theorem Spares.elements_eq {v : Value} (hv : m.Visible v) :
    m'.store.elements v = m.store.elements v := by
  unfold Store.elements
  rw [hm.links_eq h hv]
  apply List.map_congr_left
  intro a ha
  exact congrArg Cell.first (hm.cells a (h.link_visible hv a ha)).2

end Stable

/-- A value without cycles stays one as long as all that can be seen from it does. -/
theorem Valid.grounded_congr {m : Memory} (h : m.Valid) {s' : Store}
    (hcells : ∀ a, m.Visible (.pair a) → a < s'.size ∧ s'.cell a = m.store.cell a) {v : Value}
    (hv : m.Visible v) : s'.Grounded v := by
  have hgrounded := h.grounded v hv
  induction hgrounded with
  | atom hatom => exact .atom hatom
  | @pair a ha _ _ ihfirst ihrest =>
    obtain ⟨hlt, hcell⟩ := hcells a hv
    obtain ⟨hfirst, hrest⟩ := h.cell_visible a hv
    refine .pair hlt ?_ ?_
    · rw [hcell]
      exact ihfirst hfirst
    · rw [hcell]
      exact ihrest hrest

end DynLisp.Memory
