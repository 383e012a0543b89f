/-
  Proofs/Bindings.lean --- the global frame as a list of bindings.

  WHAT THIS FILE IS FOR.  A host sees the global frame as keys with their values,
  the newest first.  In a valid memory, to define a key is to `assign` it in that
  list: its value changes in place if it is bound, else a new binding goes in
  front (`Valid.globalBindings_defined`).

  WRITES THAT CHANGE NOTHING.  Several writes in a row may come to nothing even
  where one of them alone would not.  `Redundant` says exactly when they do.
-/
import DynLisp.Proofs.Requests

set_option autoImplicit false

namespace DynLisp

open Evaluation

/-! ## Lists of bindings -/

/-- Keys with their values. -/
abbrev Bindings := List (Value × Value)

namespace Bindings

/-- Where a key is bound. -/
def slotOf? (bindings : Bindings) (key : Value) : Option Nat :=
  bindings.findIdx? fun binding => binding.1.equalAtoms key

/-- The bindings with a key bound to a value: where it is bound already, else in front. -/
def assign (bindings : Bindings) (key v : Value) : Bindings :=
  match bindings.slotOf? key with
  | some i => bindings.modify i fun binding => (binding.1, v)
  | none => (key, v) :: bindings

/-- The bindings after some writes, each a key and a value, in order. -/
def assignAll (bindings writes : Bindings) : Bindings :=
  writes.foldl (fun bindings write => assign bindings write.1 write.2) bindings

/-- One of some writes is to the key at a place. -/
def Reaches (bindings writes : Bindings) (i : Nat) : Prop :=
  ∃ write ∈ writes, slotOf? bindings write.1 = some i

/-- Every key is bound already, and to what the last write to it says. -/
def Redundant (bindings : Bindings) : (writes : Bindings) → Prop
  | [] => True
  | (key, v) :: later =>
    (∃ i, slotOf? bindings key = some i ∧
      (Reaches bindings later i ∨ bindings[i]?.map Prod.snd = some v)) ∧
    Redundant bindings later

variable {bindings bindings' : Bindings}

theorem slotOf?_congr (h : bindings'.map Prod.fst = bindings.map Prod.fst) (key : Value) :
    slotOf? bindings' key = slotOf? bindings key := by
  have hkeys : ∀ b : Bindings,
      slotOf? b key = (b.map Prod.fst).findIdx? fun k => k.equalAtoms key := by
    intro b
    rw [List.findIdx?_map]
    rfl
  rw [hkeys, hkeys, h]

theorem lt_length_of_slotOf? {key : Value} {i : Nat} (h : slotOf? bindings key = some i) :
    i < bindings.length :=
  (List.findIdx?_eq_some_iff_getElem.mp h).1

theorem map_fst_modify (i : Nat) (v : Value) :
    (bindings.modify i fun binding => (binding.1, v)).map Prod.fst = bindings.map Prod.fst := by
  apply List.ext_getElem
  · simp
  · intro j hj hj'
    rw [List.getElem_map, List.getElem_map, List.getElem_modify]
    split <;> rfl

/-- To bind a key brings in the key and the value, and no others. -/
theorem of_mem_assign {key v : Value} {binding : Value × Value}
    (h : binding ∈ assign bindings key v) :
    binding ∈ bindings ∨ (∃ other ∈ bindings, binding.1 = other.1 ∧ binding.2 = v) ∨
      binding = (key, v) := by
  unfold assign at h
  split at h
  · obtain ⟨j, hj, rfl⟩ := List.mem_iff_getElem.mp h
    have hj' : j < bindings.length := by simpa using hj
    rw [List.getElem_modify]
    split
    · exact .inr (.inl ⟨bindings[j], List.getElem_mem hj', rfl, rfl⟩)
    · exact .inl (List.getElem_mem hj')
  · rcases List.mem_cons.mp h with rfl | h
    · exact .inr (.inr rfl)
    · exact .inl h

theorem length_le_assign (key v : Value) : bindings.length ≤ (assign bindings key v).length := by
  unfold assign
  split <;> simp

theorem length_le_assignAll (writes : Bindings) :
    bindings.length ≤ (assignAll bindings writes).length := by
  induction writes generalizing bindings with
  | nil => exact Nat.le_refl _
  | cons write later ih => exact Nat.le_trans (length_le_assign write.1 write.2) ih

theorem reaches_cons_iff {key v : Value} {later : Bindings} {i : Nat}
    (hslot : slotOf? bindings key = some i) (j : Nat) :
    Reaches bindings ((key, v) :: later) j ↔ i = j ∨ Reaches bindings later j := by
  simp [Reaches, hslot]

/-- A write in place is made good by later ones, or is to the value that was there. -/
theorem redundant_cons_iff (hkeys : bindings'.map Prod.fst = bindings.map Prod.fst)
    {key v : Value} {later : Bindings} {i : Nat} (hslot : slotOf? bindings key = some i) :
    (Redundant bindings ((key, v) :: later) ∧
        ∀ j, ¬ Reaches bindings ((key, v) :: later) j → bindings'[j]? = bindings[j]?) ↔
      Redundant bindings later ∧
        ∀ j, ¬ Reaches bindings later j →
          (bindings'.modify i fun binding => (binding.1, v))[j]? = bindings[j]? := by
  have hlength : bindings'.length = bindings.length := by
    simpa using congrArg List.length hkeys
  have hi : i < bindings.length := lt_length_of_slotOf? hslot
  have hi' : i < bindings'.length := hlength ▸ hi
  have hkey : bindings'[i].1 = bindings[i].1 := by
    have hget := congrArg (·[i]?) hkeys
    simpa [hi, hi'] using hget
  constructor
  · rintro ⟨⟨⟨i', hslot', hlast⟩, hlater⟩, hrest⟩
    obtain rfl : i = i' := Option.some.inj (hslot.symm.trans hslot')
    refine ⟨hlater, ?_⟩
    intro j hj
    by_cases hij : i = j
    · subst hij
      have hvalue : bindings[i].2 = v := by
        rcases hlast with hreach | hlast
        · exact absurd hreach hj
        · simpa [hi] using hlast
      rw [List.getElem?_modify_eq, List.getElem?_eq_getElem hi, List.getElem?_eq_getElem hi']
      exact congrArg some (Prod.ext hkey hvalue.symm)
    · rw [List.getElem?_modify_ne _ _ hij]
      apply hrest j
      intro hreach
      exact ((reaches_cons_iff hslot j).mp hreach).elim hij hj
  · rintro ⟨hlater, hrest⟩
    refine ⟨⟨⟨i, hslot, ?_⟩, hlater⟩, ?_⟩
    · by_cases hreach : Reaches bindings later i
      · exact .inl hreach
      · right
        rw [← hrest i hreach, List.getElem?_modify_eq, List.getElem?_eq_getElem hi']
        rfl
    · intro j hj
      rw [reaches_cons_iff hslot, not_or] at hj
      rw [← hrest j hj.2, List.getElem?_modify_ne _ _ hj.1]

/-- Some writes lead to given bindings if they are redundant there, and if all that they do not
reach is there already. -/
theorem assignAll_eq_iff (hkeys : bindings'.map Prod.fst = bindings.map Prod.fst)
    (writes : Bindings) :
    assignAll bindings' writes = bindings ↔
      Redundant bindings writes ∧
        ∀ i, ¬ Reaches bindings writes i → bindings'[i]? = bindings[i]? := by
  induction writes generalizing bindings' with
  | nil =>
    constructor
    · intro h
      exact ⟨trivial, fun i _ => congrArg (·[i]?) h⟩
    · rintro ⟨-, h⟩
      exact List.ext_getElem? fun i => h i (by simp [Reaches])
  | cons write later ih =>
    obtain ⟨key, v⟩ := write
    show assignAll (assign bindings' key v) later = bindings ↔ _
    unfold assign
    rw [slotOf?_congr hkeys key]
    cases hslot : slotOf? bindings key with
    | none =>
      -- A new binding stays, so that there are more bindings than before.
      constructor
      · intro h
        have hle : ((key, v) :: bindings').length ≤
            (assignAll ((key, v) :: bindings') later).length := length_le_assignAll later
        have hlength : bindings'.length = bindings.length := by
          simpa using congrArg List.length hkeys
        rw [h, List.length_cons] at hle
        omega
      · rintro ⟨⟨⟨i, hi, -⟩, -⟩, -⟩
        rw [hslot] at hi
        exact absurd hi (by simp)
    | some i =>
      rw [redundant_cons_iff hkeys hslot]
      exact ih ((map_fst_modify i v).trans hkeys)

/-- Writes change nothing exactly if they are redundant. -/
theorem assignAll_eq_self_iff (bindings writes : Bindings) :
    assignAll bindings writes = bindings ↔ Redundant bindings writes := by
  rw [assignAll_eq_iff rfl]
  simp

end Bindings

/-! ## The global frame -/

theorem Frame.bindings_eq_map (frame : Frame) (s : Store) :
    frame.bindings s = (frame.slots s).map fun slot => (slot.1, (s.cell slot.2).first) := by
  unfold Frame.bindings Frame.slots Store.elements
  rw [List.zip_map_right]
  rfl

namespace Memory

theorem globalBindings_eq_map (m : Memory) :
    m.globalBindings = (m.globalKeys.zip m.valueCells).map fun slot =>
      (slot.1, (m.store.cell slot.2).first) := m.environment.globals.bindings_eq_map m.store

theorem globalSlot?_eq (m : Memory) (key : Value) :
    m.globalSlot? key = ((m.globalKeys.zip m.valueCells).find? fun slot =>
      slot.1.equalAtoms key).map Prod.snd := rfl

theorem slotOf?_globalBindings (m : Memory) (key : Value) :
    Bindings.slotOf? m.globalBindings key =
      (m.globalKeys.zip m.valueCells).findIdx? fun slot => slot.1.equalAtoms key := by
  rw [globalBindings_eq_map, Bindings.slotOf?, List.findIdx?_map]
  rfl

namespace Valid

variable {m : Memory} (h : m.Valid)
include h

theorem length_globalKeys : m.globalKeys.length = m.valueCells.length := by
  rw [← h.paired, globalKeys, h.keys.elements_eq, List.length_map]

theorem map_fst_globalBindings : m.globalBindings.map Prod.fst = m.globalKeys := by
  rw [globalBindings_eq_map, List.map_map]
  exact List.map_fst_zip (Nat.le_of_eq h.length_globalKeys)

theorem globalBindings_prepended (key v : Value) :
    (m.prepended key v).globalBindings = (key, v) :: m.globalBindings := by
  rw [globalBindings_eq_map, globalBindings_eq_map, h.globalKeys_prepended,
    h.valueCells_prepended, List.zip_cons_cons, List.map_cons, cell_prepended_value]
  apply congrArg ((key, v) :: ·)
  apply List.map_congr_left
  intro slot hslot
  have ha := (List.of_mem_zip hslot).2
  rw [cell_prepended_of_lt key v (h.values.lt_size _ ha)]

/-- The chain of the values visits each cell once, so that one value only is another. -/
theorem globalBindings_overwritten {i a : Nat} (hi : m.valueCells[i]? = some a) (v : Value) :
    globalBindings { m with store := m.store.setFirst a v } =
      m.globalBindings.modify i fun binding => (binding.1, v) := by
  have hspine := m.sameSpine_setFirst a v
  have ha : a ∈ m.valueCells := List.mem_of_getElem? hi
  have hkeys : globalKeys { m with store := m.store.setFirst a v } = m.globalKeys := by
    apply hspine.globalKeys_eq h
    intro b hb
    have hne : b ≠ a := fun heq => h.apart b hb (heq ▸ ha)
    exact congrArg Cell.first (Store.cell_setFirst_of_ne hne v)
  rw [globalBindings_eq_map, globalBindings_eq_map, hkeys, hspine.valueCells_eq h]
  refine List.ext_getElem (by simp) ?_
  intro j hj hj'
  have hjvalue : j < m.valueCells.length := by
    have hlength := h.length_globalKeys
    simp only [List.length_map, List.length_zip] at hj
    omega
  rw [List.getElem_modify, List.getElem_map, List.getElem_map, List.getElem_zip]
  by_cases hij : i = j
  · subst hij
    have hcell : m.valueCells[i] = a := by
      rw [List.getElem?_eq_getElem hjvalue] at hi
      exact Option.some.inj hi
    rw [if_pos rfl, hcell, Store.cell_setFirst_self (h.values.lt_size a ha)]
  · have hne : m.valueCells[j] ≠ a := by
      intro heq
      have hsame : m.valueCells[j]? = m.valueCells[i]? := by
        rw [hi, List.getElem?_eq_getElem hjvalue, heq]
      exact hij ((List.getElem?_inj hjvalue h.values.nodup).mp hsame).symm
    rw [if_neg hij, Store.cell_setFirst_of_ne hne]

/-- New cells are no part of the global frame. -/
theorem globalBindings_eq_of_grows {m' : Memory} (hm : m.Grows m') :
    m'.globalBindings = m.globalBindings := by
  have hspine := hm.sameSpine h
  have hkeys : m'.globalKeys = m.globalKeys := by
    apply hspine.globalKeys_eq h
    intro a ha
    exact congrArg Cell.first (hm.cell_eq a (h.keys.lt_size a ha))
  rw [globalBindings_eq_map, globalBindings_eq_map, hkeys, hspine.valueCells_eq h]
  apply List.map_congr_left
  intro slot hslot
  have ha := (List.of_mem_zip hslot).2
  rw [hm.cell_eq _ (h.values.lt_size _ ha)]

/-- To define a key is to assign it in the list of bindings. -/
theorem globalBindings_defined (key v : Value) :
    (m.defined key v).globalBindings = Bindings.assign m.globalBindings key v := by
  unfold Memory.defined Bindings.assign
  rw [slotOf?_globalBindings, globalSlot?_eq]
  cases hfind : (m.globalKeys.zip m.valueCells).find? fun slot => slot.1.equalAtoms key with
  | none =>
    have hunbound : (m.globalKeys.zip m.valueCells).findIdx?
        (fun slot => slot.1.equalAtoms key) = none := by
      rw [List.findIdx?_eq_none_iff]
      intro slot hslot
      exact Bool.eq_false_iff.mpr (List.find?_eq_none.mp hfind slot hslot)
    rw [hunbound]
    exact h.globalBindings_prepended key v
  | some slot =>
    obtain ⟨hslot, i, hi, rfl, hbefore⟩ := List.find?_eq_some_iff_getElem.mp hfind
    have hbound : (m.globalKeys.zip m.valueCells).findIdx?
        (fun slot => slot.1.equalAtoms key) = some i := by
      rw [List.findIdx?_eq_some_iff_getElem]
      exact ⟨hi, hslot, fun j hj => by simpa using hbefore j hj⟩
    rw [hbound]
    refine h.globalBindings_overwritten ?_ v
    have hi' : i < m.valueCells.length := by
      rw [List.length_zip] at hi
      omega
    rw [List.getElem_zip, List.getElem?_eq_getElem hi']

end Valid

end Memory

/-! ## What evaluation leaves -/

/-- Whatever is evaluated, and whatever goes wrong meanwhile: the frames of the calls are the ones
that were there, with the same lists of the same cells, and the global frame has its keys in their
order, with new ones in front at most. -/
theorem evaluate_keeps_calls {s : Session} (h : s.Reachable) {expression : Value}
    (hx : s.memory.Visible expression) :
    let m := s.memory
    let m' := ((evaluate expression).run s).2.memory
    m'.environment.calls = m.environment.calls ∧
      (∀ frame ∈ m.environment.calls, ∀ v ∈ [frame.symbols, frame.values],
        m'.store.elements v = m.store.elements v ∧ m'.store.tail v = m.store.tail v) ∧
      (∀ a, m.Visible (.pair a) → m'.store.cell a = m.store.cell a) ∧
      m.globalBindings.map Prod.fst <:+ m'.globalBindings.map Prod.fst := by
  intro m m'
  have hm := h.valid.memory
  have hyields := h.valid.evaluate_yields hx
  have hevolves : m.Evolves m' := hyields.evolves
  refine ⟨hevolves.calls, ?_, fun a ha => (hevolves.cells a ha).2, ?_⟩
  · intro frame hframe v hv
    have hlists := hm.calls frame hframe
    have hvisible : m.Visible v := by
      simp only [List.mem_cons, List.not_mem_nil, or_false] at hv
      rcases hv with rfl | rfl
      · exact hlists.1
      · exact hlists.2
    exact ⟨hevolves.elements_eq hm hvisible, hevolves.tail_eq hm hvisible⟩
  · rw [hm.map_fst_globalBindings, hyields.valid.map_fst_globalBindings]
    exact hevolves.keys

/-- A session with little room, inside a call that binds `x` to 5.  Its last cell is the first one of
`((lambda (y) (define z (+ x (/ y 0)))) 2)`. -/
def Session.inCall : Session :=
  let quotient : Datum := .ofList [.symbol "/", .symbol "y", .number (.integer 0)]
  let body : Datum :=
    .ofList [.symbol "define", .symbol "z", .ofList [.symbol "+", .symbol "x", quotient]]
  let function : Datum := .ofList [.symbol "lambda", .ofList [.symbol "y"], body]
  Session.start { maxDepth := 3 }
    |>.after (.load (.ofList [.symbol "x"]))
    |>.after (.load (.ofList [.number (.integer 5)]))
    |>.after (.push (.pair 2) (.pair 3))
    |>.after (.load (.ofList [function, .number (.integer 2)]))

/-- The limit is hit inside the second of two calls, and the first is there as before. -/
theorem evaluate_keeps_calls_in_call :
    Session.inCall.Reachable ∧ Session.inCall.memory.Visible (.pair 18) ∧
      ((evaluate (.pair 18)).run Session.inCall).2.reported = [.depthExceeded 3] ∧
      ((evaluate (.pair 18)).run Session.inCall).2.memory.environment.calls =
        Session.inCall.memory.environment.calls := by
  have hreachable : Session.inCall.Reachable := by
    unfold Session.inCall
    refine .after (.after (.after (.after (.start _) _ ?_) _ ?_) _ ?_) _ ?_
    · trivial
    · trivial
    · exact ⟨by decide +kernel, by decide +kernel⟩
    · trivial
  have hvisible : Session.inCall.memory.Visible (.pair 18) := by decide +kernel
  exact ⟨hreachable, hvisible, by decide +kernel, (evaluate_keeps_calls hreachable hvisible).1⟩

end DynLisp
