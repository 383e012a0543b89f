/-
  Proofs/Cells.lean --- what the operations on cells come to.

  WHAT THIS FILE IS FOR.  The operations on a store and a memory are written in
  the state monad.  Here each of them is given as a function from one state to
  the next, which is what all later proofs speak of: a new cell (`appended`), a
  new list (`Built`), a new global binding (`defined`).
-/
import DynLisp.Memory
import DynLisp.Store.Builder

set_option autoImplicit false

namespace DynLisp

/-! ## Running -/

section Running

variable {σ α β : Type} (s : σ)

@[simp] theorem run_pure (a : α) : (pure a : StateM σ α).run s = (a, s) := (rfl)

@[simp] theorem run_bind (x : StateM σ α) (f : α → StateM σ β) :
    (x >>= f).run s = (f (x.run s).1).run (x.run s).2 := (rfl)

@[simp] theorem run_get : (get : StateM σ σ).run s = (s, s) := (rfl)

end Running

/-! ## New cells -/

namespace Store

/-- The store with one more cell. -/
def appended (s : Store) (first rest : Value) : Store :=
  { s with cells := s.cells.push ⟨first, rest⟩ }

@[simp] theorem size_appended (s : Store) (first rest : Value) :
    (s.appended first rest).size = s.size + 1 := by
  simp [appended, size]

theorem cell_appended_of_lt {s : Store} {a : Nat} (ha : a < s.size) (first rest : Value) :
    (s.appended first rest).cell a = s.cell a := by
  simp [appended, cell, Array.getElem?_push_lt (show a < s.cells.size from ha),
    Array.getElem?_eq_getElem (show a < s.cells.size from ha)]

@[simp] theorem cell_appended_size (s : Store) (first rest : Value) :
    (s.appended first rest).cell s.size = ⟨first, rest⟩ := by
  simp [appended, cell, size]

/-! ## Changed cells -/

@[simp] theorem size_update (s : Store) (a : Nat) (change : Cell → Cell) :
    (s.update a change).size = s.size := by
  simp [update, size]

theorem cell_update_of_ne {s : Store} {a b : Nat} (h : b ≠ a) (change : Cell → Cell) :
    (s.update a change).cell b = s.cell b := by
  simp [update, cell, Array.getElem?_modify, h.symm]

theorem cell_update_self {s : Store} {a : Nat} (ha : a < s.size) (change : Cell → Cell) :
    (s.update a change).cell a = change (s.cell a) := by
  simp [update, cell, Array.getElem?_modify,
    Array.getElem?_eq_getElem (show a < s.cells.size from ha)]

@[simp] theorem size_setFirst (s : Store) (a : Nat) (v : Value) :
    (s.setFirst a v).size = s.size := size_update s a _

theorem cell_setFirst_of_ne {s : Store} {a b : Nat} (h : b ≠ a) (v : Value) :
    (s.setFirst a v).cell b = s.cell b := cell_update_of_ne h _

theorem cell_setFirst_self {s : Store} {a : Nat} (ha : a < s.size) (v : Value) :
    (s.setFirst a v).cell a = ⟨v, (s.cell a).rest⟩ := cell_update_self ha _

theorem rest_setFirst (s : Store) (a : Nat) (v : Value) (b : Nat) :
    ((s.setFirst a v).cell b).rest = (s.cell b).rest := by
  by_cases hb : b = a
  · subst hb
    rcases Nat.lt_or_ge b s.size with hlt | hge
    · rw [cell_setFirst_self hlt]
    · simp [cell, setFirst, update, Array.getElem?_modify,
        Array.getElem?_eq_none (show s.cells.size ≤ b from hge)]
  · rw [cell_setFirst_of_ne hb]

end Store

/-! ## New lists -/

namespace Store

/-- A store in which a builder has come to hold some values, each in a new cell that leads to the
next one. -/
structure Built (s : Store) (items : List Value) (builder : Builder) (s' : Store) : Prop where
  size_eq : s'.size = s.size + items.length
  cell_old : ∀ a, a < s.size → s'.cell a = s.cell a
  cell_new : ∀ i (hi : i < items.length), s'.cell (s.size + i) =
    ⟨items[i], if i + 1 < items.length then .pair (s.size + i + 1) else .nil⟩
  builder_eq : builder =
    if items = [] then .empty else .chain s.size (s.size + items.length - 1)

theorem Built.empty (s : Store) : s.Built [] .empty s :=
  ⟨rfl, fun _ _ => rfl, fun _ hi => absurd hi (Nat.not_lt_zero _), rfl⟩

/-- One more element makes a new cell, and the cell that was last lead to it. -/
theorem Built.push {s s' : Store} {items : List Value} {builder : Builder}
    (h : s.Built items builder s') (v : Value) :
    s.Built (items ++ [v]) ((builder.push v).run s').1 ((builder.push v).run s').2 := by
  have hsize := h.size_eq
  rw [h.builder_eq]
  by_cases hitems : items = []
  · subst hitems
    rw [if_pos rfl]
    have hrun : (Builder.empty.push v).run s' =
        (.chain s'.size s'.size, s'.appended v .nil) := rfl
    rw [hrun]
    simp only [List.length_nil, Nat.add_zero] at hsize
    refine ⟨by simp [hsize], ?_, ?_, by simp [hsize]⟩
    · intro a ha
      rw [cell_appended_of_lt (hsize ▸ ha), h.cell_old a ha]
    · intro i hi
      obtain rfl : i = 0 := by simpa using hi
      rw [Nat.add_zero, ← hsize, cell_appended_size]
      simp
  · rw [if_neg hitems]
    have hpos : 0 < items.length := List.length_pos_iff.mpr hitems
    have hrun : ((Builder.chain s.size (s.size + items.length - 1)).push v).run s' =
        (.chain s.size s'.size,
          (s'.appended v .nil).setRest (s.size + items.length - 1) (.pair s'.size)) := rfl
    rw [hrun]
    refine ⟨by simp [setRest, hsize, Nat.add_assoc], ?_, ?_, by simp [hsize]⟩
    · intro a ha
      have hne : a ≠ s.size + items.length - 1 := by omega
      rw [setRest, cell_update_of_ne hne, cell_appended_of_lt (by omega), h.cell_old a ha]
    · intro i hi
      simp only [List.length_append, List.length_singleton] at hi ⊢
      by_cases hlast : i = items.length
      · subst hlast
        have hne : s.size + items.length ≠ s.size + items.length - 1 := by omega
        rw [setRest, cell_update_of_ne hne, ← hsize, cell_appended_size]
        simp
      · have hi' : i < items.length := by omega
        rw [List.getElem_append_left hi', if_pos (by omega)]
        by_cases hend : i + 1 = items.length
        · have heq : s.size + items.length - 1 = s.size + i := by omega
          rw [setRest, heq, cell_update_self (by simp; omega),
            cell_appended_of_lt (by omega), h.cell_new i hi', hsize]
          simp only [Cell.mk.injEq, true_and, Value.pair.injEq]
          omega
        · have hne : s.size + i ≠ s.size + items.length - 1 := by omega
          rw [setRest, cell_update_of_ne hne, cell_appended_of_lt (by omega),
            h.cell_new i hi', if_pos (by omega)]

theorem Built.pushAll {s s' : Store} {before : List Value} {builder : Builder}
    (h : s.Built before builder s') (items : List Value) :
    s.Built (before ++ items) ((items.foldlM Builder.push builder).run s').1
      ((items.foldlM Builder.push builder).run s').2 := by
  induction items generalizing before builder s' with
  | nil =>
    rw [List.append_nil]
    exact h
  | cons v more ih =>
    have hmore := ih (h.push v)
    rw [List.append_assoc, List.singleton_append] at hmore
    rw [List.foldlM_cons, run_bind]
    exact hmore

/-- A new list is a builder that has been given all its elements. -/
theorem built_list (s : Store) (items : List Value) :
    ∃ builder, s.Built items builder ((list items).run s).2 ∧
      ((list items).run s).1 = builder.finish :=
  ⟨_, (Built.empty s).pushAll items, rfl⟩

end Store

/-! ## Global bindings -/

namespace Memory

/-- The memory with a new binding in front of all others. -/
def prepended (m : Memory) (key v : Value) : Memory :=
  let keys := m.store.appended key m.environment.globals.symbols
  { store := keys.appended v m.environment.globals.values
    environment := { m.environment with globals := ⟨.pair m.store.size, .pair keys.size⟩ } }

/-- The memory in which a key is bound globally to a value. -/
def defined (m : Memory) (key v : Value) : Memory :=
  match m.globalSlot? key with
  | some address => { m with store := m.store.setFirst address v }
  | none => m.prepended key v

theorem run_define (m : Memory) (key v : Value) :
    (Memory.define key v).run m = (v, m.defined key v) := by
  unfold define defined
  simp only [run_bind, run_get]
  cases m.globalSlot? key with
  | some address => rfl
  | none => rfl

theorem pop_defined (m : Memory) (key v : Value) :
    (m.defined key v).pop = m.pop.defined key v := by
  unfold defined
  have hslot : m.pop.globalSlot? key = m.globalSlot? key := rfl
  rw [hslot]
  cases m.globalSlot? key <;> rfl

end Memory

end DynLisp
