/-
  Proofs/Provenance.lean --- evaluation makes no new data.

  WHAT THIS FILE IS FOR.  Evaluation makes cells: the lists of arguments that calls
  bind, and the cells of the global frame.  None of them is ever seen.  Whatever
  evaluation gives, and whatever it leaves bound, is made of strings, symbols and
  cells that could be come to before: from the expression, or from what some frame
  bound.  The one exception is the symbol for true.

  THE REGIME.  So the values that a program may hold are those that can be traced
  back to the start (`provenance`), and what the frames bind are such values.
-/
import DynLisp.Proofs.Bindings

set_option autoImplicit false

namespace DynLisp

open Evaluation

/-- The value has an identity: it was made at some moment, and can be told from others like it. -/
def Value.isNode : Value → Bool
  | .nil | .number _ => false
  | .string _ | .symbol _ | .pair _ => true

namespace Memory

/-! ## What operations bind -/

/-- What a key is bound to is bound. -/
theorem binds_of_lookup {m : Memory} {key v : Value} (h : m.lookup key = some v) : m.Binds v := by
  obtain ⟨frame, hframe, hbound⟩ := List.exists_of_findSome?_eq_some h
  obtain ⟨a, hslot, rfl⟩ := Option.map_eq_some_iff.mp hbound
  obtain ⟨slot, hfind, rfl⟩ := Option.map_eq_some_iff.mp hslot
  refine ⟨frame, hframe, (slot.1, (m.store.cell slot.2).first), ?_, .inr rfl⟩
  rw [frame.bindings_eq_map]
  exact List.mem_map_of_mem (List.mem_of_find?_eq_some hfind)

section Binds

variable {m m' : Memory} (h : m.Valid)
include h

/-- The frames of the calls bind the same as long as only global values change. -/
theorem Valid.bindings_eq (hm : m.Spares m') {frame : Frame}
    (hframe : frame ∈ m.environment.calls) :
    frame.bindings m'.store = frame.bindings m.store := by
  obtain ⟨hsymbols, hvalues⟩ := h.calls frame hframe
  unfold Frame.bindings
  rw [hm.elements_eq h hsymbols, hm.elements_eq h hvalues]

/-- Inside a call, the parameters and the arguments are bound as well. -/
theorem Valid.binds_entered {parameters : Value} (hparameters : m.Visible parameters)
    {arguments : List Value} {w : Value} (hw : (m.entered parameters arguments).Binds w) :
    m.Binds w ∨ w ∈ m.store.elements parameters ∨ w ∈ arguments := by
  have hgrows := m.grows_list arguments
  have hspares := (hgrows.evolves h).toSpares
  obtain ⟨frame, hframe, binding, hbinding, hw⟩ := hw
  have hsplit : frame = ⟨parameters, ((Store.list arguments).run m.store).1⟩ ∨
      frame ∈ m.environment.calls ∨ frame = m.environment.globals := by
    rcases List.mem_append.mp hframe with hcall | hglobal
    · rcases List.mem_cons.mp hcall with rfl | hcall
      · exact .inl rfl
      · exact .inr (.inl hcall)
    · exact .inr (.inr (List.mem_singleton.mp hglobal))
  rcases hsplit with rfl | hcall | rfl
  · obtain ⟨hkey, hbound⟩ := List.of_mem_zip hbinding
    rcases hw with rfl | rfl
    · have helements := hspares.elements_eq h hparameters
      exact .inr (.inl (helements ▸ hkey))
    · have helements := Store.elements_list m.store arguments
      exact .inr (.inr (helements ▸ hbound))
  · have hbindings := h.bindings_eq hspares hcall
    exact .inl ⟨frame, List.mem_append_left _ hcall, binding, hbindings ▸ hbinding, hw⟩
  · have hglobal : binding ∈ m.globalBindings := by
      rw [← h.globalBindings_eq_of_grows hgrows]
      exact hbinding
    exact .inl ⟨m.environment.globals, by simp, binding, hglobal, hw⟩

/-- What is bound later was bound before, or is bound globally. -/
theorem Valid.binds_of_evolves (hm : m.Evolves m') {w : Value} (hw : m'.Binds w) :
    m.Binds w ∨ ∃ binding ∈ m'.globalBindings, w = binding.1 ∨ w = binding.2 := by
  obtain ⟨frame, hframe, binding, hbinding, hw⟩ := hw
  rcases List.mem_append.mp hframe with hcall | hglobal
  · rw [hm.calls] at hcall
    have hbindings := h.bindings_eq hm.toSpares hcall
    exact .inl ⟨frame, List.mem_append_left _ hcall, binding, hbindings ▸ hbinding, hw⟩
  · rw [List.mem_singleton.mp hglobal] at hbinding
    exact .inr ⟨binding, hbinding, hw⟩

/-- After a definition, the key and its value may be bound where they were not. -/
theorem Valid.binds_defined {key v : Value} (hkey : m.Visible key) (hv : m.Visible v) {w : Value}
    (hw : (m.defined key v).Binds w) : m.Binds w ∨ w = key ∨ w = v := by
  rcases h.binds_of_evolves (h.defined hkey hv).evolves hw with hold | ⟨binding, hbinding, hw⟩
  · exact .inl hold
  · rw [h.globalBindings_defined key v] at hbinding
    rcases Bindings.of_mem_assign hbinding with hold | ⟨other, hother, hfirst, hsecond⟩ | hnew
    · obtain ⟨hkey, hbound⟩ := binds_of_mem_globalBindings hold
      rcases hw with rfl | rfl
      · exact .inl hkey
      · exact .inl hbound
    · rcases hw with hw | hw
      · exact .inl (hw.trans hfirst ▸ (binds_of_mem_globalBindings hother).1)
      · exact .inr (.inr (hw.trans hsecond))
    · rw [hnew] at hw
      exact .inr hw

end Binds

end Memory

/-! ## Tracing -/

/-- The value is true, or in some memory one could come to it from an expression or from what some
frame bound. -/
def Traced (m : Memory) (truth expression w : Value) : Prop :=
  w = truth ∨ ∃ origin, (origin = expression ∨ m.Binds origin) ∧ m.store.Reaches origin w

/-- The value can be traced, if it has an identity at all. -/
def Known (m : Memory) (truth expression w : Value) : Prop :=
  w.isNode = true → Traced m truth expression w

section Tracing

variable {m m' : Memory} {expression : Value} {label : Label} (h : m.Valid)
  (hx : m.Visible expression)
include h hx

theorem visible_of_known {w : Value} (hw : Known m (.symbol label) expression w) :
    m.Visible w := by
  cases w with
  | nil | number | string | symbol => trivial
  | pair a =>
    rcases hw rfl with heq | ⟨origin, rfl | hbinds, hreaches⟩
    · simp at heq
    · exact h.visible_of_reaches hx hreaches
    · exact h.visible_of_reaches (h.visible_of_binds hbinds) hreaches

/-- A cell that is known is still what it was, so that both its halves are known too. -/
theorem Known.halves (hm : m.Spares m') {a : Nat}
    (ha : Known m (.symbol label) expression (.pair a)) :
    Known m (.symbol label) expression (m'.store.cell a).first ∧
      Known m (.symbol label) expression (m'.store.cell a).rest := by
  rw [(hm.cells a (visible_of_known h hx ha)).2]
  rcases ha rfl with heq | ⟨origin, horigin, hreaches⟩
  · simp at heq
  · exact ⟨fun _ => .inr ⟨origin, horigin, hreaches.first⟩,
      fun _ => .inr ⟨origin, horigin, hreaches.rest⟩⟩

theorem known_of_reaches (hm : m.Spares m') {v w : Value}
    (hv : Known m (.symbol label) expression v) (hw : m'.store.Reaches v w) :
    Known m (.symbol label) expression w :=
  hw.closed hv (fun _ ha => (ha.halves h hx hm).1) fun _ ha => (ha.halves h hx hm).2

end Tracing

/-- A memory that comes of another one, and binds nothing but what was known there. -/
structure Descends (m : Memory) (truth expression : Value) (m' : Memory) : Prop where
  valid : m'.Valid
  spares : m.Spares m'
  known : ∀ w, m'.Binds w → Known m truth expression w

/-- The regime of all that is known at the start. -/
def provenance {m : Memory} {expression : Value} (h : m.Valid) (hx : m.Visible expression)
    (label : Label) : Regime (.symbol label) where
  Orderly := Descends m (.symbol label) expression
  Holds _ := Known m (.symbol label) expression
  valid hm := hm.valid
  visible hm hw := hm.spares.visible (visible_of_known h hx hw)
  holds_nil _ hnode := by simp [Value.isNode] at hnode
  holds_number _ _ hnode := by simp [Value.isNode] at hnode
  holds_truth _ _ := .inl rfl
  holds_first {_ w} hm hw := by
    cases w with
    | pair a => exact (hw.halves h hx hm.spares).1
    | nil | number | string | symbol =>
      intro hnode
      simp [Store.first, Value.isNode] at hnode
  holds_rest {_ w} hm hw := by
    cases w with
    | pair a => exact (hw.halves h hx hm.spares).2
    | nil | number | string | symbol =>
      intro hnode
      simp [Store.rest, Value.isNode] at hnode
  holds_lookup hm hlookup := hm.known _ (Memory.binds_of_lookup hlookup)
  kept _ hw := hw
  entered {m' parameters arguments} hm hparameters harguments := by
    have hseen := hm.spares.visible (visible_of_known h hx hparameters)
    have hall : ∀ v ∈ arguments, m'.Visible v :=
      fun v hv => hm.spares.visible (visible_of_known h hx (harguments v hv))
    have hlist := hm.valid.list hall
    refine ⟨hlist.valid.push (hlist.evolves.visible hseen) hlist.visible,
      hm.spares.trans (hm.valid.spares_entered _ _), ?_⟩
    intro w hw
    rcases hm.valid.binds_entered hseen hw with hold | hparameter | hargument
    · exact hm.known w hold
    · exact known_of_reaches h hx hm.spares hparameters (hm.valid.reaches_element hseen hparameter)
    · exact harguments w hargument
  popped {m'} hm := by
    refine ⟨hm.valid.pop, hm.spares.trans m'.spares_pop, ?_⟩
    rintro w ⟨frame, hframe, hbinding⟩
    refine hm.known w ⟨frame, ?_, hbinding⟩
    rcases List.mem_append.mp hframe with hcall | hglobal
    · exact List.mem_append_left _ (List.mem_of_mem_tail hcall)
    · exact List.mem_append_right _ hglobal
  defined {m' key v} hm hkey hv := by
    have hkey' := hm.spares.visible (visible_of_known h hx hkey)
    have hv' := hm.spares.visible (visible_of_known h hx hv)
    have hdefined := hm.valid.defined hkey' hv'
    refine ⟨hdefined.valid, hm.spares.trans hdefined.evolves.toSpares, ?_⟩
    intro w hw
    rcases hm.valid.binds_defined hkey' hv' hw with hold | rfl | rfl
    · exact hm.known w hold
    · exact hkey
    · exact hv

/-! ## What evaluation gives and leaves -/

/-- Whatever has an identity and can be come to after an evaluation, from its result or from what
some frame then binds, is true or could be come to before: from the expression, or from what some
frame bound.  So if it is a cell, it is not one that the evaluation has made. -/
theorem evaluate_traced {s : Session} (h : s.Reachable) {expression : Value}
    (hx : s.memory.Visible expression) :
    let m := s.memory
    let ended := (evaluate expression).run s
    let m' := ended.2.memory
    ∀ source, (source = ended.1 ∨ m'.Binds source) →
      ∀ w, m'.store.Reaches source w → w.isNode = true →
        Traced m s.truth expression w ∧ ∀ a, w = .pair a → a < m.store.size := by
  intro m ended m' source hsource w hw hnode
  have hm := h.valid.memory
  have htruth := h.valid.truth
  let R := provenance hm hx ⟨0, Session.truthName⟩
  have hbound : ∀ v, m.Binds v → Known m (.symbol ⟨0, Session.truthName⟩) expression v :=
    fun v hv _ => .inr ⟨v, .inr hv, .here⟩
  have hstart : R.Orderly m := Descends.mk hm (.refl m) hbound
  have hyields : R.Yields m m' ended.1 :=
    h.valid.evaluate_meets htruth hstart fun _ => .inr ⟨expression, .inl rfl, .here⟩
  have hknown : Known m (.symbol ⟨0, Session.truthName⟩) expression source := by
    rcases hsource with rfl | hbinds
    · exact hyields.holds
    · exact hyields.orderly.known source hbinds
  have hreached := known_of_reaches hm hx hyields.orderly.spares hknown hw
  refine ⟨htruth ▸ hreached hnode, ?_⟩
  rintro a rfl
  exact (visible_of_known hm hx hreached).1

/-- A session that holds `((lambda (x) (define y x)) '(1 2))` in its last cell, and the list of the
numbers in cell 10. -/
def Session.holdingCall : Session :=
  let body : Datum := .ofList [.symbol "define", .symbol "y", .symbol "x"]
  let function : Datum := .ofList [.symbol "lambda", .ofList [.symbol "x"], body]
  let numbers : Datum := .ofList [.number (.integer 1), .number (.integer 2)]
  Session.start {} |>.after (.load (.ofList [function, .quoted numbers]))

/-- The call makes three cells, and binds `y` to a part of the expression. -/
theorem evaluate_traced_call :
    let ended := (evaluate (.pair 14)).run Session.holdingCall
    Session.holdingCall.Reachable ∧ Session.holdingCall.memory.Visible (.pair 14) ∧
      ended.2.memory.store.size = Session.holdingCall.memory.store.size + 3 ∧
      ended.2.memory.lookupName "y" = some (.pair 10) ∧
      Traced Session.holdingCall.memory Session.holdingCall.truth (.pair 14) (.pair 10) ∧
      10 < Session.holdingCall.memory.store.size := by
  have hreachable : Session.holdingCall.Reachable := .after (.start {}) _ trivial
  have hvisible : Session.holdingCall.memory.Visible (.pair 14) := by decide +kernel
  have hbound : ((evaluate (.pair 14)).run Session.holdingCall).2.memory.lookupName "y" =
      some (.pair 10) := by decide +kernel
  have htraced := evaluate_traced hreachable hvisible (.pair 10)
    (.inr (Memory.binds_of_lookup hbound)) (.pair 10) .here rfl
  exact ⟨hreachable, hvisible, by decide +kernel, hbound, htraced.1, htraced.2 10 rfl⟩

end DynLisp
