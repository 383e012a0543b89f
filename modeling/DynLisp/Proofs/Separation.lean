/-
  Proofs/Separation.lean --- data that a host has seen does not change under it.

  WHAT THIS FILE IS FOR.  A host makes `Visit`s to a session: it has expressions and
  texts evaluated, pushes and pops frames, looks names up and binds them, and makes
  values.  No visit changes a cell on purpose.  But cells are shared between all
  that holds them, and two of the operations do write into cells: the definition of
  a name that is bound, and the building of a list.  `visitAll_keeps_cells` says that
  neither is ever seen.

  THE SEPARATION.  The only cells that are written are those that hold the values of
  the global frame, and nothing that a host can get hold of leads into them.
-/
import DynLisp.Proofs.Requests

set_option autoImplicit false

namespace DynLisp

open Evaluation

/-! ## Visits -/

/-- What a host does with a session without changing a cell itself. -/
inductive Visit where
  | evaluate (expression : Value)
  /-- evaluate the first form of a text -/
  | evaluateFirst (text : String)
  /-- evaluate all forms of a text -/
  | evaluateText (text : String)
  /-- evaluate the next form of a stream -/
  | evaluateNext (stream : Token.Stream)
  /-- push a frame -/
  | push (symbols values : Value)
  /-- pop the innermost frame -/
  | pop
  | lookup (key : Value)
  /-- bind a key globally -/
  | define (key v : Value)
  /-- list the keys and values of the global frame -/
  | globalBindings
  /-- make a value that shows a datum -/
  | load (datum : Datum)
  | cons (first rest : Value)
  | list (items : List Value)

namespace Visit

/-- The values that the host brings along. -/
def given : Visit → List Value
  | evaluate expression => [expression]
  | evaluateFirst _ | evaluateText _ | evaluateNext _ | pop | globalBindings | load _ => []
  | push symbols values => [symbols, values]
  | lookup key => [key]
  | define key v => [key, v]
  | cons first rest => [first, rest]
  | list items => items

/-- What the session does, and the values that the host is handed. -/
def answer : Visit → Evaluation (List Value)
  | evaluate expression => return [← Evaluation.evaluate expression]
  | evaluateFirst text => return [← Evaluation.evaluateFirst text]
  | evaluateText text => Evaluation.evaluateText text
  | evaluateNext stream => return (← Evaluation.evaluateNext stream).1.toList
  | push symbols values => do
    inMemory (modify fun m => m.push symbols values)
    return []
  | pop => do
    inMemory (modify fun m => m.pop)
    return []
  | lookup key => return ((← get).memory.lookup key).toList
  | define key v => return [← inMemory (Memory.define key v)]
  | globalBindings =>
    return (← get).memory.globalBindings.flatMap fun binding => [binding.1, binding.2]
  | load datum => return [← inMemory (Memory.making (Store.load datum))]
  | cons first rest => return [← inMemory (Memory.making (Store.cons first rest))]
  | list items => return [← inMemory (Memory.making (Store.list items))]

/-- The values that the host brings along can be seen. -/
def Allowed (m : Memory) (visit : Visit) : Prop := ∀ v ∈ visit.given, m.Visible v

instance (m : Memory) (visit : Visit) : Decidable (visit.Allowed m) := by
  unfold Allowed
  infer_instance

end Visit

/-- Some visits in order, and all the values that the host is handed. -/
def visitAll : List Visit → Evaluation (List Value)
  | [] => return []
  | visit :: more => do
    let handed ← visit.answer
    return handed ++ (← visitAll more)

/-- Each of some visits is allowed when its turn comes. -/
def AllowedAll : List Visit → Session → Prop
  | [], _ => True
  | visit :: more, s => visit.Allowed s.memory ∧ AllowedAll more (visit.answer.run s).2

/-! ## One visit -/

/-- A session that has become another one and has handed out some values, with nothing changed that
can be seen. -/
structure Session.Attends (s s' : Session) (handed : List Value) : Prop where
  valid : s'.Valid
  spares : s.memory.Spares s'.memory
  visible : ∀ v ∈ handed, s'.memory.Visible v

namespace Session.Attends

variable {s s' s'' : Session} {handed handed' : List Value}

theorem refl (h : s.Valid) : s.Attends s [] := ⟨h, .refl _, by simp⟩

theorem trans (h : s.Attends s' handed) (h' : s'.Attends s'' handed') :
    s.Attends s'' (handed ++ handed') := by
  refine ⟨h'.valid, h.spares.trans h'.spares, ?_⟩
  intro v hv
  rcases List.mem_append.mp hv with hv | hv
  · exact h'.spares.visible (h.visible v hv)
  · exact h'.visible v hv

end Session.Attends

theorem Session.attends_of_yields {s s' : Session} {v : Value} (hvalid : s'.Valid)
    (hyields : s.memory.Yields s'.memory v) : s.Attends s' [v] :=
  ⟨hvalid, hyields.evolves.toSpares, by simpa using hyields.visible⟩

namespace Session.Valid

variable {s : Session} (h : s.Valid)
include h

theorem attends_evaluateForm (form : Form) :
    s.Attends ((evaluateForm form).run s).2 [((evaluateForm form).run s).1] := by
  obtain ⟨hvalid, hyields⟩ := h.read_keeps form
  exact attends_of_yields hvalid hyields

omit h in
theorem attends_evaluateForms (forms : List Form) (h : s.Valid) :
    s.Attends ((forms.mapM evaluateForm).run s).2 ((forms.mapM evaluateForm).run s).1 := by
  induction forms generalizing s with
  | nil => exact .refl h
  | cons form more ih =>
    have hform := h.attends_evaluateForm form
    have hall := hform.trans (ih hform.valid)
    simpa only [List.mapM_cons, run_bind, run_pure, List.singleton_append] using hall

theorem attends_evaluateNext (stream : Token.Stream) :
    s.Attends ((evaluateNext stream).run s).2 ((evaluateNext stream).run s).1.1.toList := by
  unfold evaluateNext
  split
  · exact .refl h
  · exact h.attends_evaluateForm stream.read

theorem attends_evaluateFirst (text : String) :
    s.Attends ((evaluateFirst text).run s).2 [((evaluateFirst text).run s).1] := by
  have hnext := h.attends_evaluateNext (.ofText s.settings.comments text)
  have hrun : (evaluateFirst text).run s =
      (((evaluateNext (.ofText s.settings.comments text)).run s).1.1.getD .nil,
        ((evaluateNext (.ofText s.settings.comments text)).run s).2) := rfl
  rw [hrun]
  refine ⟨hnext.valid, hnext.spares, ?_⟩
  intro v hv
  rw [List.mem_singleton.mp hv]
  cases hresult : ((evaluateNext (.ofText s.settings.comments text)).run s).1.1 with
  | none => trivial
  | some result => exact hnext.visible result (by simp [hresult])

/-- What can be seen is served, and only the values of the global frame change. -/
theorem attends_answer {visit : Visit} (hallowed : visit.Allowed s.memory) :
    s.Attends (visit.answer.run s).2 (visit.answer.run s).1 := by
  have hm := h.memory
  cases visit with
  | evaluate expression =>
    have hx := hallowed expression List.mem_cons_self
    exact attends_of_yields (h.evaluate_serves hx).valid (h.evaluate_yields hx)
  | evaluateFirst text => exact h.attends_evaluateFirst text
  | evaluateText text => exact attends_evaluateForms _ h
  | evaluateNext stream => exact h.attends_evaluateNext stream
  | push symbols values =>
    have hsymbols := hallowed symbols (by simp [Visit.given])
    have hvalues := hallowed values (by simp [Visit.given])
    exact ⟨⟨hm.push hsymbols hvalues, h.truth, h.resting⟩, s.memory.spares_push _ _,
      fun _ hv => absurd hv List.not_mem_nil⟩
  | pop =>
    exact ⟨⟨hm.pop, h.truth, h.resting⟩, s.memory.spares_pop,
      fun _ hv => absurd hv List.not_mem_nil⟩
  | lookup key =>
    refine ⟨h, .refl _, fun v hv => ?_⟩
    exact hm.lookup_visible (Option.mem_toList.mp hv)
  | define key v =>
    have hkey := hallowed key (by simp [Visit.given])
    have hv := hallowed v (by simp [Visit.given])
    have hdefined := hm.defined hkey hv
    show s.Attends ((inMemory (Memory.define key v)).run s).2
      [((inMemory (Memory.define key v)).run s).1]
    rw [run_inMemory_define]
    exact attends_of_yields ⟨hdefined.valid, h.truth, h.resting⟩ hdefined
  | globalBindings =>
    refine ⟨h, .refl _, fun v hv => ?_⟩
    obtain ⟨binding, hbinding, hv⟩ := List.mem_flatMap.mp hv
    refine hm.visible_of_binds ⟨s.memory.environment.globals, by simp, binding, hbinding, ?_⟩
    simpa using hv
  | load datum =>
    have hload := hm.load datum
    exact attends_of_yields ⟨hload.valid, h.truth, h.resting⟩ hload
  | cons first rest =>
    have hfirst := hallowed first (by simp [Visit.given])
    have hrest := hallowed rest (by simp [Visit.given])
    have hpair := hm.appended hfirst hrest
    exact attends_of_yields ⟨hpair.valid, h.truth, h.resting⟩ hpair
  | list items =>
    have hlist := hm.list hallowed
    exact attends_of_yields ⟨hlist.valid, h.truth, h.resting⟩ hlist

end Session.Valid

/-! ## Many visits -/

theorem run_visitAll_cons (visit : Visit) (more : List Visit) (s : Session) :
    (visitAll (visit :: more)).run s =
      ((visit.answer.run s).1 ++ ((visitAll more).run (visit.answer.run s).2).1,
        ((visitAll more).run (visit.answer.run s).2).2) := rfl

theorem Session.Valid.attends_visitAll {visits : List Visit} {s : Session} (h : s.Valid)
    (hallowed : AllowedAll visits s) :
    s.Attends ((visitAll visits).run s).2 ((visitAll visits).run s).1 := by
  induction visits generalizing s with
  | nil => exact .refl h
  | cons visit more ih =>
    obtain ⟨hvisit, hmore⟩ := hallowed
    have hanswer := h.attends_answer hvisit
    rw [run_visitAll_cons]
    exact hanswer.trans (ih hanswer.valid hmore)

theorem allowedAll_append {before after : List Visit} {s : Session} :
    AllowedAll (before ++ after) s ↔
      AllowedAll before s ∧ AllowedAll after ((visitAll before).run s).2 := by
  induction before generalizing s with
  | nil => exact ⟨fun hafter => ⟨trivial, hafter⟩, fun h => h.2⟩
  | cons visit more ih =>
    rw [List.cons_append, AllowedAll, AllowedAll, ih, run_visitAll_cons, and_assoc]

/-- What a host has brought along can still be seen at the end. -/
theorem visible_of_given {visits : List Visit} {s : Session} (h : s.Valid)
    (hallowed : AllowedAll visits s) {visit : Visit} (hvisit : visit ∈ visits) {v : Value}
    (hv : v ∈ visit.given) : ((visitAll visits).run s).2.memory.Visible v := by
  induction visits generalizing s with
  | nil => simp at hvisit
  | cons first more ih =>
    obtain ⟨hfirst, hmore⟩ := hallowed
    have hanswer := h.attends_answer hfirst
    rw [run_visitAll_cons]
    rcases List.mem_cons.mp hvisit with rfl | hvisit
    · exact (hanswer.valid.attends_visitAll hmore).spares.visible
        (hanswer.spares.visible (hfirst v hv))
    · exact ih hanswer.valid hmore hvisit

/-- A host that has made some visits and is about to make others knows of the value: it has been
handed it, has brought it along or is bringing it along now, or some frame has it. -/
def Exposed (s : Session) (before after : List Visit) (v : Value) : Prop :=
  let now := ((visitAll before).run s).2.memory
  v ∈ ((visitAll before).run s).1 ∨ (∃ visit ∈ before, v ∈ visit.given) ∨
    (∃ visit, after.head? = some visit ∧ v ∈ visit.given) ∨ now.Binds v ∨
    ∃ frame ∈ now.environment.calls, v = frame.symbols ∨ v = frame.values

theorem visible_of_exposed {s : Session} (h : s.Valid) {before after : List Visit}
    (hallowed : AllowedAll (before ++ after) s) {v : Value} (hv : Exposed s before after v) :
    ((visitAll before).run s).2.memory.Visible v := by
  obtain ⟨hbefore, hafter⟩ := allowedAll_append.mp hallowed
  have hnow := h.attends_visitAll hbefore
  rcases hv with hv | ⟨visit, hvisit, hv⟩ | ⟨visit, hnext, hv⟩ | hv | ⟨frame, hframe, hv⟩
  · exact hnow.visible v hv
  · exact visible_of_given h hbefore hvisit hv
  · cases after with
    | nil => simp at hnext
    | cons first more =>
      obtain rfl : first = visit := Option.some.inj hnext
      exact hafter.1 v hv
  · exact hnow.valid.memory.visible_of_binds hv
  · obtain ⟨hsymbols, hvalues⟩ := hnow.valid.memory.calls frame hframe
    rcases hv with rfl | rfl
    · exact hsymbols
    · exact hvalues

/-- Cut a sequence of visits anywhere.  Every cell that can be come to from what the host knows of
at the cut is the same ever after.  Of all cells that there are at the cut, only those that hold
global values ever change, and only in the half that holds the value.  And what is handed out never
leads into the global frame's own cells. -/
theorem visitAll_keeps_cells {s : Session} (h : s.Reachable) {before after : List Visit}
    (hallowed : AllowedAll (before ++ after) s) :
    let atCut := (visitAll before).run s
    let atEnd := (visitAll after).run atCut.2
    let m := atCut.2.memory
    let m' := atEnd.2.memory
    (∀ v, Exposed s before after v → ∀ a, m.store.Reaches v (.pair a) →
      a < m.store.size ∧ m'.store.cell a = m.store.cell a) ∧
    (∀ a < m.store.size, (m'.store.cell a).rest = (m.store.cell a).rest ∧
      (a ∉ m.valueCells → m'.store.cell a = m.store.cell a)) ∧
    (∀ v ∈ atCut.1 ++ atEnd.1, ∀ a, m'.store.Reaches v (.pair a) →
      a ∉ m'.keyCells ∧ a ∉ m'.valueCells) := by
  intro atCut atEnd m m'
  obtain ⟨hbefore, hafter⟩ := allowedAll_append.mp hallowed
  have hcut := h.valid.attends_visitAll hbefore
  have hend := hcut.valid.attends_visitAll hafter
  refine ⟨?_, ?_, ?_⟩
  · intro v hv a ha
    have hseen := visible_of_exposed h.valid hallowed hv
    have hreached := hcut.valid.memory.visible_of_reaches hseen ha
    exact ⟨hreached.1, (hend.spares.cells a hreached).2⟩
  · intro a ha
    exact ⟨hend.spares.rest_eq a ha, hend.spares.cell_eq a ha⟩
  · intro v hv a ha
    have hseen := (hcut.trans hend).visible v hv
    exact (hend.valid.memory.visible_of_reaches hseen ha).2

/-- A host evaluates `(define y '(1 2))`, which it has made in the cell at address 8, and looks `y`
up. -/
def bindingVisits : List Visit :=
  let list : Datum := .ofList [.number (.integer 1), .number (.integer 2)]
  [.load (.ofList [.symbol "define", .symbol "y", .quoted list]), .evaluate (.pair 8),
    .lookup (.symbol ⟨0, "y"⟩)]

/-- It then binds `y` to 3. -/
def rebindingVisits : List Visit := [.define (.symbol ⟨0, "y"⟩) (.number (.integer 3))]

/-- The list that was handed out stays, and the cell that held it as the value of `y` does not. -/
theorem visitAll_keeps_cells_rebinding :
    let atCut := (visitAll bindingVisits).run (Session.start {})
    let atEnd := (visitAll rebindingVisits).run atCut.2
    AllowedAll (bindingVisits ++ rebindingVisits) (Session.start {}) ∧
      atCut.1 = [.pair 8, .pair 3, .pair 3] ∧
      atEnd.2.memory.store.cell 3 = atCut.2.memory.store.cell 3 ∧
      atEnd.2.memory.store.cell 10 ≠ atCut.2.memory.store.cell 10 := by
  have hallowed : AllowedAll (bindingVisits ++ rebindingVisits) (Session.start {}) :=
    ⟨by decide +kernel, by decide +kernel, by decide +kernel, by decide +kernel, trivial⟩
  have hhanded : ((visitAll bindingVisits).run (Session.start {})).1 =
      [.pair 8, .pair 3, .pair 3] := by decide +kernel
  have hexposed : Exposed (Session.start {}) bindingVisits rebindingVisits (.pair 3) := by
    unfold Exposed
    rw [hhanded]
    exact .inl (by simp)
  have hkept := visitAll_keeps_cells (.start {}) hallowed
  exact ⟨hallowed, hhanded, (hkept.1 (.pair 3) hexposed 3 .here).2, by decide +kernel⟩

end DynLisp
