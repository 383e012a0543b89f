/-
  Proofs/Requests.lean --- the sessions that there can be.

  WHAT THIS FILE IS FOR.  A host starts a session and then makes requests of it, in
  any order: it evaluates, reads, makes values, changes their cells, pushes and
  pops frames, and binds keys.  A `Reachable` session is one that some requests
  lead to, and every such session is `Valid`.

  WHAT A HOST MAY ASK.  A request is `Allowed` if the values in it can be seen, and
  if a changed cell does not come to lead back to itself.  What a host has been
  given stays visible (`Session.Valid.after`), so the first of the two is no more
  than that values are not made up.
-/
import DynLisp.Proofs.Soundness
import DynLisp.Session.Reading

set_option autoImplicit false

namespace DynLisp

open Evaluation

/-! ## Requests -/

/-- What a host asks of a session. -/
inductive Request where
  | evaluate (expression : Value)
  /-- evaluate a form that has been read -/
  | read (form : Form)
  | takeReported
  /-- make a value that shows a datum -/
  | load (datum : Datum)
  | cons (first rest : Value)
  | list (items : List Value)
  | setFirst (address : Nat) (v : Value)
  | setRest (address : Nat) (v : Value)
  /-- push a frame -/
  | push (symbols values : Value)
  /-- pop the innermost frame -/
  | pop
  /-- bind a key globally -/
  | define (key v : Value)

namespace Request

/-- What a session does about a request, and the value that it gives.  The empty list stands for no
value. -/
def answer : Request → Evaluation Value
  | evaluate expression => Evaluation.evaluate expression
  | read form => evaluateForm form
  | takeReported => do
    modify fun s => s.takeReported.2
    return .nil
  | load datum => inMemory (Memory.making (Store.load datum))
  | cons first rest => inMemory (Memory.making (Store.cons first rest))
  | list items => inMemory (Memory.making (Store.list items))
  | setFirst address v => do
    inMemory (modify fun m => { m with store := m.store.setFirst address v })
    return .pair address
  | setRest address v => do
    inMemory (modify fun m => { m with store := m.store.setRest address v })
    return .pair address
  | push symbols values => do
    inMemory (modify fun m => m.push symbols values)
    return .nil
  | pop => do
    inMemory (modify fun m => m.pop)
    return .nil
  | define key v => inMemory (Memory.define key v)

/-- The values of the request can be seen, and it makes no cycle. -/
def Allowed (m : Memory) : Request → Prop
  | evaluate expression => m.Visible expression
  | read _ | takeReported | load _ | pop => True
  | cons first rest => m.Visible first ∧ m.Visible rest
  | list items => ∀ v ∈ items, m.Visible v
  | setFirst address v =>
    m.Visible (.pair address) ∧ m.Visible v ∧
      (m.store.setFirst address v).Grounded (.pair address)
  | setRest address v =>
    m.Visible (.pair address) ∧ m.Visible v ∧
      (m.store.setRest address v).Grounded (.pair address)
  | push symbols values => m.Visible symbols ∧ m.Visible values
  | define key v => m.Visible key ∧ m.Visible v

end Request

namespace Session

/-- The session after a request. -/
def after (s : Session) (request : Request) : Session := (request.answer.run s).2

/-- A session that some requests lead to. -/
inductive Reachable : Session → Prop where
  | start (settings : Settings) : Reachable (start settings)
  | after {s : Session} (h : Reachable s) (request : Request)
      (hallowed : request.Allowed s.memory) : Reachable (s.after request)

/-! ## The invariant of sessions -/

/-- Between two requests the memory is valid, true is a symbol, and no form is being evaluated. -/
structure Valid (s : Session) : Prop where
  memory : s.memory.Valid
  truth : s.truth = .symbol ⟨0, truthName⟩
  resting : s.abandoned = false

/-- A session that has become another one, and has given a value. -/
structure Serves (s s' : Session) (v : Value) : Prop where
  valid : s'.Valid
  held : ∀ w, s.memory.Visible w → s'.memory.Visible w
  visible : s'.memory.Visible v

theorem Valid.serves {s s' : Session} {v : Value} (h : s.Valid)
    (hmemory : s.memory.Yields s'.memory v) (htruth : s'.truth = s.truth)
    (hresting : s'.abandoned = false) : s.Serves s' v :=
  ⟨⟨hmemory.valid, htruth.trans h.truth, hresting⟩, fun _ hw => hmemory.evolves.visible hw,
    hmemory.visible⟩

/-- The session with no form being evaluated. -/
def rested (s : Session) : Session := { s with abandoned := false }

theorem Valid.rested_eq {s : Session} (h : s.Valid) : s.rested = s := by
  obtain ⟨memory, truth, settings, reported, abandoned⟩ := s
  obtain rfl : abandoned = false := h.resting
  rfl

end Session

/-! ## Evaluation -/

theorem run_evaluate (s : Session) (expression : Value) :
    (evaluate expression).run s =
      (((evaluateWithin s.settings.maxDepth expression).run s.rested).1,
        ((evaluateWithin s.settings.maxDepth expression).run s.rested).2.rested) := rfl

theorem Ending.truth_resume (ending : Ending) : ending.resume.2.truth = ending.2.truth := by
  obtain ⟨result, s⟩ := ending
  cases result with
  | ok v => rfl
  | error waiting =>
    show ((unwindFrom .nil waiting).run s.abandon).2.truth = _
    rw [run_unwindFrom_session]
    rfl

namespace Session.Valid

variable {s : Session} (h : s.Valid)
include h

/-- To evaluate is to go on from where the stopping evaluator ends. -/
theorem run_evaluate_eq_resume (expression : Value) :
    (evaluate expression).run s =
      ((evaluateOrStop s.settings.maxDepth expression s).resume.1,
        (evaluateOrStop s.settings.maxDepth expression s).resume.2.rested) := by
  rw [run_evaluate, h.rested_eq, evaluateWithin_eq_resume _ expression s h.resting h.truth]

/-- Evaluation keeps to a regime. -/
theorem evaluate_meets {truth : Value} {R : Regime truth} (htruth : s.truth = truth)
    (horderly : R.Orderly s.memory) {expression : Value} (hx : R.Holds s.memory expression) :
    R.Yields s.memory ((evaluate expression).run s).2.memory ((evaluate expression).run s).1 := by
  rw [h.run_evaluate_eq_resume]
  have hmeets := evaluateOrStop_meets s.settings.maxDepth expression s htruth horderly hx
  have hkept := evaluateOrStop_continues s.settings.maxDepth expression s
  exact hmeets.resume (hkept.truth.trans htruth)

theorem evaluate_yields {expression : Value} (hx : s.memory.Visible expression) :
    s.memory.Yields ((evaluate expression).run s).2.memory ((evaluate expression).run s).1 :=
  (h.evaluate_meets (R := visibility _) h.truth h.memory hx).seen

theorem truth_evaluate (expression : Value) :
    ((evaluate expression).run s).2.truth = s.truth := by
  rw [h.run_evaluate_eq_resume]
  exact (Ending.truth_resume _).trans
    (evaluateOrStop_continues s.settings.maxDepth expression s).truth

theorem evaluate_serves {expression : Value} (hx : s.memory.Visible expression) :
    s.Serves ((evaluate expression).run s).2 ((evaluate expression).run s).1 :=
  h.serves (h.evaluate_yields hx) (h.truth_evaluate expression) rfl

/-- Reports change nothing but what has been reported. -/
theorem run_reports (errors : List ReadError) :
    ((errors.forM fun error => report (.unreadable error)).run s).2 =
      { s with reported := s.reported ++ errors.map .unreadable } := by
  induction errors generalizing s with
  | nil =>
    rw [List.map_nil, List.append_nil]
    rfl
  | cons error more ih =>
    have hreport : ((report (.unreadable error)).run s).2 =
        { s with reported := s.reported ++ [.unreadable error] } := by
      show (if s.abandoned then s else _) = _
      rw [h.resting, if_neg Bool.false_ne_true]
    have hvalid : Valid { s with reported := s.reported ++ [.unreadable error] } :=
      ⟨h.memory, h.truth, h.resting⟩
    have hmore := ih hvalid
    rw [List.forM_eq_forM] at hmore ⊢
    rw [List.forM_cons, run_bind, hreport, hmore, List.append_assoc, List.map_cons,
      List.singleton_append]

/-- To evaluate a form that has been read keeps a session valid. -/
theorem read_keeps (form : Form) :
    ((evaluateForm form).run s).2.Valid ∧
      s.memory.Yields ((evaluateForm form).run s).2.memory ((evaluateForm form).run s).1 := by
  have hreported : Valid { s with reported := s.reported ++ form.errors.map .unreadable } :=
    ⟨h.memory, h.truth, h.resting⟩
  unfold evaluateForm
  rw [run_bind, h.run_reports]
  cases form.outcome with
  | error trouble => exact ⟨hreported, .here h.memory trivial⟩
  | ok datum =>
    have hload := h.memory.load datum
    have hloaded : Valid ((inMemory (Memory.making (Store.load datum))).run
        { s with reported := s.reported ++ form.errors.map .unreadable }).2 :=
      ⟨hload.valid, h.truth, h.resting⟩
    have hyields := hloaded.evaluate_yields hload.visible
    exact ⟨(hloaded.evaluate_serves hload.visible).valid, hyields.after hload.evolves⟩

end Session.Valid

/-! ## Every request -/

namespace Session

/-- A request keeps a session valid, and what can be seen stays visible. -/
theorem Valid.after {s : Session} (h : s.Valid) {request : Request}
    (hallowed : request.Allowed s.memory) :
    s.Serves (s.after request) (request.answer.run s).1 := by
  cases request with
  | evaluate expression => exact h.evaluate_serves hallowed
  | read form =>
    obtain ⟨hvalid, hyields⟩ := h.read_keeps form
    exact ⟨hvalid, fun _ hw => hyields.evolves.visible hw, hyields.visible⟩
  | takeReported => exact ⟨⟨h.memory, h.truth, h.resting⟩, fun _ hw => hw, trivial⟩
  | load datum => exact h.serves (h.memory.load datum) rfl h.resting
  | cons first rest => exact h.serves (h.memory.appended hallowed.1 hallowed.2) rfl h.resting
  | list items => exact h.serves (h.memory.list hallowed) rfl h.resting
  | setFirst address v =>
    obtain ⟨ha, hv, hgrounded⟩ := hallowed
    obtain ⟨hvalid, hheld⟩ := h.memory.changed ha hv (h.memory.cell_visible address ha).2 hgrounded
    exact ⟨⟨hvalid, h.truth, h.resting⟩, hheld, hheld _ ha⟩
  | setRest address v =>
    obtain ⟨ha, hv, hgrounded⟩ := hallowed
    obtain ⟨hvalid, hheld⟩ := h.memory.changed ha (h.memory.cell_visible address ha).1 hv hgrounded
    exact ⟨⟨hvalid, h.truth, h.resting⟩, hheld, hheld _ ha⟩
  | push symbols values =>
    exact ⟨⟨h.memory.push hallowed.1 hallowed.2, h.truth, h.resting⟩, fun _ hw => hw, trivial⟩
  | pop => exact ⟨⟨h.memory.pop, h.truth, h.resting⟩, fun _ hw => hw, trivial⟩
  | define key v =>
    have hdefined := h.memory.defined hallowed.1 hallowed.2
    show s.Serves ((inMemory (Memory.define key v)).run s).2
      ((inMemory (Memory.define key v)).run s).1
    rw [run_inMemory_define]
    exact h.serves hdefined rfl h.resting

/-- In a new session the symbol for true is bound to itself, and that is all. -/
theorem valid_start (settings : Settings) : (start settings).Valid := by
  have hsymbol := Memory.valid_empty.renumbered 1 (v := .symbol ⟨0, truthName⟩) trivial
  have hdefined := hsymbol.valid.defined hsymbol.visible hsymbol.visible
  have hmemory : (start settings).memory =
      ((Memory.define (.symbol ⟨0, truthName⟩) (.symbol ⟨0, truthName⟩)).run
        ⟨{ serials := 1 }, {}⟩).2 := rfl
  refine ⟨?_, rfl, rfl⟩
  rw [hmemory, Memory.run_define]
  exact hdefined.valid

/-- Whatever is asked of a session, in whatever order, it stays valid. -/
theorem Reachable.valid {s : Session} (h : s.Reachable) : s.Valid := by
  induction h with
  | start settings => exact valid_start settings
  | after _ _ hallowed ih => exact (ih.after hallowed).valid

end Session

end DynLisp
