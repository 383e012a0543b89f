/-
  Proofs/Parameters.lean --- what parameters mean when the body of a function starts.

  WHAT THIS FILE IS FOR.  A call pairs the parameters of the function with the values of its
  arguments, one by one.  A parameter for which there is no argument is paired with
  nothing, so that it is not bound by the call.  Under dynamic scope it then means what it
  means to the caller, and it reads as the empty list only if it means nothing there
  either (`unsupplied_parameter_means_outer`).

  THE STATES IN BETWEEN.  A call may stand anywhere in a program.  So all this is said of
  any valid session that is not abandoned, with however much room is left, and not only of
  those that a host gets to see.
-/
import DynLisp.Proofs.Likeness

set_option autoImplicit false

namespace DynLisp

open Evaluation Memory

/-! ## Parameters and arguments -/

/-- Of parameters with different names, each is bound to the argument at its own place, and to
nothing if there is none. -/
theorem Bindings.value?_parameters {parameters : List Label}
    (hdistinct : (parameters.map Label.text).Nodup) (values : List Value) {i : Nat} {label : Label}
    (hi : parameters[i]? = some label) :
    value? ((parameters.map Value.symbol).zip values) (.symbol label) = values[i]? := by
  induction parameters generalizing values i with
  | nil => simp at hi
  | cons parameter more ih =>
    obtain ⟨hout, hmore⟩ := List.nodup_cons.mp hdistinct
    cases values with
    | nil => rfl
    | cons v values =>
      rw [List.map_cons, List.zip_cons_cons, value?_cons]
      cases i with
      | zero =>
        obtain rfl : parameter = label := by simpa using hi
        rw [if_pos (Value.equalAtoms_self (by simp))]
        rfl
      | succ i =>
        have hlater : more[i]? = some label := hi
        have hne : parameter.text ≠ label.text := by
          intro htext
          rw [htext] at hout
          exact hout (List.mem_map_of_mem (List.mem_of_getElem? hlater))
        rw [if_neg (by simp [Value.equalAtoms, hne])]
        exact ih hmore values hlater

/-- Inside a call, a key that is none of the parameters with an argument means what it means
outside. -/
theorem Memory.Valid.lookup_entered {m : Memory} (h : m.Valid) {parameters : Value}
    (hparameters : m.Visible parameters) (arguments : List Value) (key : Value) :
    (m.entered parameters arguments).lookup key =
      (Bindings.value? ((m.store.elements parameters).zip arguments) key).or (m.lookup key) := by
  have hglobals : (m.entered parameters arguments).globalBindings = m.globalBindings :=
    congrArg Scopes.globals (h.scopes_entered hparameters arguments)
  rw [lookup_eq_or, lookup_eq_or, h.calledValue_entered hparameters, hglobals, Option.or_assoc]

/-! ## Calls -/

/-- The expression is a call of a function: one that its head is bound to, or that is written out in
its place. -/
inductive Memory.Calls (m : Memory) (x function : Value) : Prop where
  | named {label : Label} (hhead : m.store.first x = .symbol label)
      (hname : Operator.find? label.text = none)
      (hbound : m.lookup (.symbol label) = some function)
      (hfunction : m.store.isLambda function = true)
  | inPlace (hhead : m.store.first x = function) (hfunction : m.store.isLambda function = true)

theorem Memory.Calls.function_visible {m : Memory} (h : m.Valid) {x function : Value}
    (hx : m.Visible x) (hcall : m.Calls x function) : m.Visible function := by
  cases hcall with
  | named _ _ hbound _ => exact h.lookup_visible hbound
  | inPlace hhead _ => exact hhead ▸ h.first_visible hx

/-- The plan of a call is to apply the function. -/
theorem Plan.of_calls {m : Memory} {x function : Value} (hcall : m.Calls x function) :
    Plan.of m x = ofFunction m function (m.store.rest x) := by
  cases x with
  | pair a =>
    cases hcall with
    | named hhead hname hbound hfunction =>
      simp only [Plan.of, ofCall, hhead, hname, hbound, hfunction, if_true]
    | inPlace hhead hfunction =>
      cases function with
      | pair b => simp only [Plan.of, ofCall, hhead, hfunction, if_true]
      | nil | number | string | symbol => exact Bool.noConfusion hfunction
  | nil | number | string | symbol =>
    cases hcall with
    | named hhead => exact Value.noConfusion hhead
    | inPlace hhead hfunction =>
      obtain rfl : Value.nil = function := hhead
      exact Bool.noConfusion hfunction

namespace Session

/-- The session inside a call. -/
def entered (s : Session) (parameters : Value) (values : List Value) : Session :=
  { s with memory := s.memory.entered parameters values }

/-- The session outside the innermost call. -/
def left (s : Session) : Session := { s with memory := s.memory.pop }

end Session

/-- A call evaluates its arguments in order, and then the body of the function inside the call. -/
theorem run_evaluateWithin_call {s : Session} (hs : s.abandoned = false) {x function : Value}
    (hcall : s.memory.Calls x function) (room : Nat) :
    let called := ((s.memory.store.elements (s.memory.store.rest x)).mapM
      (evaluateWithin room)).run s
    let ended := (evaluateWithin room (s.memory.store.third function)).run
      (called.2.entered (s.memory.store.second function) called.1)
    (evaluateWithin (room + 1) x).run s = (ended.1, ended.2.left) := by
  rw [run_evaluateWithin_succ hs, Plan.of_calls hcall, Plan.ofFunction, run_follow_ofArguments]
  rfl

theorem run_evaluateWithin_symbol {s : Session} (hs : s.abandoned = false) (room : Nat)
    (label : Label) :
    (evaluateWithin (room + 1) (.symbol label)).run s =
      ((s.memory.lookup (.symbol label)).getD .nil, s) := by
  rw [run_evaluateWithin_succ hs]
  rfl

/-! ## Evaluated arguments -/

section Arguments

variable {label : Label}

/-- Evaluation keeps a memory valid, abandoned or not. -/
theorem evaluateWithin_yields {s : Session} (htruth : s.truth = .symbol label)
    (h : s.memory.Valid) {x : Value} (hx : s.memory.Visible x) (room : Nat) :
    let ended := (evaluateWithin room x).run s
    ended.2.truth = s.truth ∧ s.memory.Yields ended.2.memory ended.1 := by
  cases hs : s.abandoned with
  | true =>
    rw [run_evaluateWithin_of_abandoned hs]
    exact ⟨rfl, .here h trivial⟩
  | false =>
    have hkept := (evaluateOrStop_continues room x s).truth
    have hmeets := evaluateOrStop_sound room x s htruth h hx
    rw [evaluateWithin_eq_resume room x s hs htruth]
    exact ⟨(Ending.truth_resume _).trans hkept, (hmeets.resume (hkept.trans htruth)).seen⟩

theorem mapM_evaluateWithin_evolves {s : Session} (htruth : s.truth = .symbol label)
    (h : s.memory.Valid) {arguments : List Value} (harguments : ∀ x ∈ arguments, s.memory.Visible x)
    (room : Nat) :
    let called := (arguments.mapM (evaluateWithin room)).run s
    called.1.length = arguments.length ∧ called.2.memory.Valid ∧
      s.memory.Evolves called.2.memory := by
  induction arguments generalizing s with
  | nil => exact ⟨rfl, h, .refl _⟩
  | cons x more ih =>
    obtain ⟨hx, hmore⟩ := List.forall_mem_cons.mp harguments
    obtain ⟨hkept, hyields⟩ := evaluateWithin_yields htruth h hx room
    obtain ⟨hlength, hvalid, hevolves⟩ := ih (hkept.trans htruth) hyields.valid
      fun other hother => hyields.evolves.visible (hmore other hother)
    simp only [List.mapM_cons, run_bind, run_pure, List.length_cons]
    exact ⟨congrArg (· + 1) hlength, hvalid, hyields.evolves.trans hevolves⟩

end Arguments

/-! ## The start of a body -/

/-- If the body of a call has been evaluated within the limit, so have the arguments before it, and
there was room left. -/
theorem room_of_not_abandoned {s : Session} {room : Nat} {body : Value}
    (hlimit : ((evaluateWithin room body).run s).2.abandoned = false) :
    s.abandoned = false ∧ ∃ fewer, room = fewer + 1 := by
  have hs : s.abandoned = false := by
    rw [← Bool.not_eq_true]
    intro habandoned
    rw [run_evaluateWithin_of_abandoned habandoned, habandoned] at hlimit
    exact Bool.noConfusion hlimit
  refine ⟨hs, Nat.exists_eq_succ_of_ne_zero ?_⟩
  rintro rfl
  have hend : (evaluateWithin 0 body).run s = (.nil, s.abandon) := run_abandon hs
  rw [hend] at hlimit
  exact Bool.noConfusion hlimit

/-- A call that keeps within the depth limit evaluates its arguments, and then the body of the
function in a session where all of the following holds.  A parameter with an argument means the
value of that argument.  A parameter without one is not bound by the call: it means what the
innermost call around binds its name to, else what is bound globally once the arguments have been
evaluated, and the empty list only if nobody binds the name. -/
theorem unsupplied_parameter_means_outer {s : Session} (h : s.Valid) {room : Nat}
    {x function : Value} {parameters : List Label} (hx : s.memory.Visible x)
    (hcall : s.memory.Calls x function)
    (hparameters : s.memory.store.elements (s.memory.store.second function) =
      parameters.map .symbol)
    (hdistinct : (parameters.map Label.text).Nodup)
    (hlimit : ((evaluateWithin (room + 1) x).run s).2.abandoned = false) :
    let arguments := s.memory.store.elements (s.memory.store.rest x)
    let called := (arguments.mapM (evaluateWithin room)).run s
    let inside := called.2.entered (s.memory.store.second function) called.1
    let ended := (evaluateWithin room (s.memory.store.third function)).run inside
    let outer : Scopes := ⟨called.2.memory.globalBindings, s.memory.scopes.calls⟩
    (evaluateWithin (room + 1) x).run s = (ended.1, ended.2.left) ∧
      called.1.length = arguments.length ∧
      (∀ (i : Nat) label v, parameters[i]? = some label → called.1[i]? = some v →
        (evaluateWithin room (.symbol label)).run inside = (v, inside)) ∧
      ∀ (i : Nat) label, parameters[i]? = some label → arguments.length ≤ i →
        (evaluateWithin room (.symbol label)).run inside =
          ((outer.lookup (.symbol label)).getD .nil, inside) := by
  intro arguments called inside ended outer
  have hrun : (evaluateWithin (room + 1) x).run s = (ended.1, ended.2.left) :=
    run_evaluateWithin_call h.resting hcall room
  have hfunction := hcall.function_visible h.memory hx
  have hseen : s.memory.Visible (s.memory.store.second function) :=
    h.memory.first_visible (h.memory.rest_visible hfunction)
  obtain ⟨hlength, hvalid, hevolves⟩ := mapM_evaluateWithin_evolves h.truth h.memory
    (h.memory.element_visible (h.memory.rest_visible hx)) room
  have hended : ended.2.abandoned = false := by
    rw [hrun] at hlimit
    exact hlimit
  obtain ⟨hinside, fewer, rfl⟩ := room_of_not_abandoned hended
  -- Every parameter is looked up among the new bindings first.
  have hmeans : ∀ (i : Nat) label, parameters[i]? = some label →
      (evaluateWithin (fewer + 1) (.symbol label)).run inside =
        ((called.1[i]?.or (outer.lookup (.symbol label))).getD .nil, inside) := by
    intro i label hi
    have houter : called.2.memory.lookup (.symbol label) = outer.lookup (.symbol label) := by
      rw [lookup_eq_scopes]
      exact congrArg (fun calls => Scopes.lookup ⟨_, calls⟩ _) (h.memory.scopes_calls_eq hevolves)
    have hlookup : inside.memory.lookup (.symbol label) =
        called.1[i]?.or (outer.lookup (.symbol label)) := by
      rw [← houter, ← Bindings.value?_parameters hdistinct called.1 hi, ← hparameters,
        ← hevolves.toSpares.elements_eq h.memory hseen]
      exact hvalid.lookup_entered (hevolves.visible hseen) called.1 (.symbol label)
    rw [run_evaluateWithin_symbol hinside, hlookup]
  refine ⟨hrun, hlength, fun i label v hi hv => ?_, fun i label hi hmissing => ?_⟩
  · rw [hmeans i label hi, hv]
    rfl
  · rw [hmeans i label hi, List.getElem?_eq_none (le_of_eq_of_le hlength hmissing)]
    rfl

/-- A session inside a call that binds `b` to 5, while it is 7 globally.  Its last cell is the first
one of `((lambda (a b c d) (+ b c)) (define c 8))`, which has a single argument. -/
def Session.holdingShortCall : Session :=
  let parameters : Datum := .ofList [.symbol "a", .symbol "b", .symbol "c", .symbol "d"]
  let body : Datum := .ofList [.symbol "+", .symbol "b", .symbol "c"]
  let definition : Datum := .ofList [.symbol "define", .symbol "c", .number (.integer 8)]
  Session.start { maxDepth := 3 }
    |>.after (.define (.symbol ⟨1, "b"⟩) (.number (.integer 7)))
    |>.after (.load (.ofList [.symbol "b"]))
    |>.after (.load (.ofList [.number (.integer 5)]))
    |>.after (.push (.pair 4) (.pair 5))
    |>.after (.load (.ofList [.ofList [.symbol "lambda", parameters, body], definition]))

theorem reachable_holdingShortCall : Session.holdingShortCall.Reachable := by
  unfold Session.holdingShortCall
  refine .after (.after (.after (.after (.after (.start _) _ ?_) _ ?_) _ ?_) _ ?_) _ ?_
  · exact ⟨trivial, trivial⟩
  · trivial
  · trivial
  · exact ⟨by decide +kernel, by decide +kernel⟩
  · trivial

/-- Without an argument, `b` is what the call around binds, `c` what the argument of `a` has just
defined, and `d` nothing at all. -/
theorem unsupplied_parameter_means_outer_shadowed :
    let s := Session.holdingShortCall
    let called := ((s.memory.store.elements (s.memory.store.rest (.pair 20))).mapM
      (evaluateWithin 2)).run s
    let inside := called.2.entered (s.memory.store.second (.pair 15)) called.1
    s.Valid ∧ s.memory.Visible (.pair 20) ∧ s.memory.Calls (.pair 20) (.pair 15) ∧
      s.memory.store.elements (s.memory.store.second (.pair 15)) =
        [⟨3, "a"⟩, ⟨4, "b"⟩, ⟨5, "c"⟩, ⟨6, "d"⟩].map Value.symbol ∧
      ((evaluateWithin 3 (.pair 20)).run s).2.abandoned = false ∧
      (evaluateWithin 2 (.symbol ⟨3, "a"⟩)).run inside = (.number (.integer 8), inside) ∧
      (evaluateWithin 2 (.symbol ⟨4, "b"⟩)).run inside = (.number (.integer 5), inside) ∧
      (evaluateWithin 2 (.symbol ⟨5, "c"⟩)).run inside = (.number (.integer 8), inside) ∧
      (evaluateWithin 2 (.symbol ⟨6, "d"⟩)).run inside = (.nil, inside) := by
  -- All that matters of the session is decided here, so that it need not be computed again.
  obtain ⟨s, hs⟩ : ∃ s, s = Session.holdingShortCall := ⟨_, rfl⟩
  rw [← hs]
  have hvalid : s.Valid := hs ▸ reachable_holdingShortCall.valid
  have hvisible : s.memory.Visible (.pair 20) := by rw [hs]; decide +kernel
  have hcall : s.memory.Calls (.pair 20) (.pair 15) := by
    rw [hs]
    exact .inPlace (by decide +kernel) (by decide +kernel)
  have hparameters : s.memory.store.elements (s.memory.store.second (.pair 15)) =
      [⟨3, "a"⟩, ⟨4, "b"⟩, ⟨5, "c"⟩, ⟨6, "d"⟩].map Value.symbol := by rw [hs]; decide +kernel
  have hlimit : ((evaluateWithin 3 (.pair 20)).run s).2.abandoned = false := by
    rw [hs]; decide +kernel
  have hcount : (s.memory.store.elements (s.memory.store.rest (.pair 20))).length = 1 := by
    rw [hs]; decide +kernel
  have hcalled : (((s.memory.store.elements (s.memory.store.rest (.pair 20))).mapM
      (evaluateWithin 2)).run s).1 = [.number (.integer 8)] := by rw [hs]; decide +kernel
  have hglobals : (((s.memory.store.elements (s.memory.store.rest (.pair 20))).mapM
      (evaluateWithin 2)).run s).2.memory.globalBindings =
      [(.symbol ⟨11, "c"⟩, .number (.integer 8)), (.symbol ⟨1, "b"⟩, .number (.integer 7)),
        (.symbol ⟨0, "t"⟩, .symbol ⟨0, "t"⟩)] := by rw [hs]; decide +kernel
  have hcalls : s.memory.scopes.calls = [[(.symbol ⟨1, "b"⟩, .number (.integer 5))]] := by
    rw [hs]; decide +kernel
  obtain ⟨-, -, hsupplied, houter⟩ := unsupplied_parameter_means_outer hvalid hvisible hcall
    hparameters (by decide) hlimit
  rw [hglobals, hcalls, hcount] at houter
  refine ⟨hvalid, hvisible, hcall, hparameters, hlimit, ?_, ?_, ?_, ?_⟩
  · exact hsupplied 0 ⟨3, "a"⟩ _ rfl (by rw [hcalled]; rfl)
  · exact houter 1 ⟨4, "b"⟩ rfl (by decide)
  · exact houter 2 ⟨5, "c"⟩ rfl (by decide)
  · exact houter 3 ⟨6, "d"⟩ rfl (by decide)

/-- A session in which a host has read `(define b 5)` and loads `((lambda (a b) b) 1)`. -/
def Session.holdingCallBesideGlobal : Session :=
  let function : Datum :=
    .ofList [.symbol "lambda", .ofList [.symbol "a", .symbol "b"], .symbol "b"]
  Session.start {}
    |>.after (.read (Token.Stream.ofText false "(define b 5)").read)
    |>.after (.load (.ofList [function, .number (.integer 1)]))

/-- There is no argument for `b`, and `b` is the whole body.  Still the call does not give the
empty list, because `b` is bound globally. -/
theorem unsupplied_parameter_not_empty :
    let s := Session.holdingCallBesideGlobal
    let room := s.settings.maxDepth - 1
    let arguments := s.memory.store.elements (s.memory.store.rest (.pair 13))
    let called := (arguments.mapM (evaluateWithin room)).run s
    let inside := called.2.entered (s.memory.store.second (.pair 11)) called.1
    s.Reachable ∧ s.memory.Visible (.pair 13) ∧ s.memory.Calls (.pair 13) (.pair 11) ∧
      s.memory.store.elements (s.memory.store.second (.pair 11)) =
        [⟨4, "a"⟩, ⟨5, "b"⟩].map Value.symbol ∧
      arguments.length = 1 ∧
      s.memory.store.third (.pair 11) = .symbol ⟨6, "b"⟩ ∧
      ((evaluateWithin (room + 1) (.pair 13)).run s).2.abandoned = false ∧
      ((evaluateWithin room (.symbol ⟨5, "b"⟩)).run inside).1 = .number (.integer 5) ∧
      ((evaluate (.pair 13)).run s).1 = .number (.integer 5) := by
  have hreachable : Session.holdingCallBesideGlobal.Reachable := by
    unfold Session.holdingCallBesideGlobal
    refine .after (.after (.start _) _ ?_) _ ?_
    · trivial
    · trivial
  have hcall : Session.holdingCallBesideGlobal.memory.Calls (.pair 13) (.pair 11) :=
    .inPlace (by decide +kernel) (by decide +kernel)
  exact ⟨hreachable, by decide +kernel, hcall, by decide +kernel, by decide +kernel,
    by decide +kernel, by decide +kernel, by decide +kernel, by decide +kernel⟩

end DynLisp
