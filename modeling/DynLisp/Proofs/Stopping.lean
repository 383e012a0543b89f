/-
  Proofs/Stopping.lean --- an evaluator that stops at the depth limit.

  WHAT THIS FILE IS FOR.  The evaluator of a session does not stop when the depth
  limit is hit.  It raises a flag, and every form that encloses the place still
  runs to its end.  Here is the other way to do it: `evaluateOrStop` ends at once,
  pops the frames of the calls that were going on, and says which forms were
  waiting for a value, the innermost first.

  THE TWO AGREE.  If the stopping evaluator comes to a value, so does the session,
  and to the same one in the same state.  If it stops, the session goes on from that
  very state and does no more than `unwind` the forms that were waiting.  Both are
  `evaluateWithin_eq_resume`, and so a list of `Pending` tells all that can happen
  after the limit is hit.
-/
import DynLisp.Proofs.Plan

set_option autoImplicit false

namespace DynLisp

open Evaluation

/-! ## The stopping evaluator -/

/-- The end of an evaluation that may stop: a value, or the forms that were waiting for one, the
innermost first.  In both cases with the session as it is then. -/
abbrev Ending := Except (List Pending) Value × Session

/-- An end with a value. -/
def Ending.reached (result : Value × Session) : Ending := (.ok result.1, result.2)

/-- Do what a plan says, but stop when a part does. -/
def Plan.attempt (evaluate : Value → Session → Ending) : Plan → Session → Ending
  | value v, s => (.ok v, s)
  | truth b, s => (.ok (s.boolean b), s)
  | fault condition _, s => .reached ((failing condition).run s)
  | bind key v, s => .reached ((inMemory (Memory.define key v)).run s)
  | enter parameters arguments body, s =>
    let (ending, s) := evaluate body ((enterCall parameters arguments).run s).2
    (ending, (leaveCall.run s).2)
  | part pending expression next, s =>
    match evaluate expression s with
    | (.ok v, s) => attempt evaluate (next v s.memory) s
    | (.error waiting, s) => (.error (waiting ++ [pending]), s)

/-- The value of an expression, unless its evaluation goes deeper than there is room. -/
def evaluateOrStop : (room : Nat) → Value → Session → Ending
  | 0, _, s => (.error [], s)
  | room + 1, expression, s =>
    (Plan.of s.memory expression).attempt (evaluateOrStop room) s

/-! ## What comes after the limit is hit -/

/-- What a form does with the value it was waiting for. -/
def Pending.settle (v : Value) : Pending → Evaluation Value
  | passing => return v
  | dropping => return .nil
  | inverting => boolean (!v.isTruthy)
  | comparing other => boolean (other.equalAtoms v)
  | binding arguments => do inMemory (Memory.define ((← store).first arguments) v)
  | listing before missing => do
    let _ ← inMemory (Memory.making (Store.list (before ++ v :: List.replicate missing .nil)))
    return .nil

/-- Settle the forms that wait for a value, from the innermost on. -/
def unwindFrom (v : Value) (waiting : List Pending) : Evaluation Value :=
  waiting.foldlM (fun v pending => pending.settle v) v

/-- Settle the forms that were waiting when the depth limit was hit. -/
def unwind (waiting : List Pending) : Evaluation Value := unwindFrom .nil waiting

/-- The session when the form being evaluated has gone too deep. -/
def Session.abandon (s : Session) : Session :=
  { s with
    reported := s.reported ++ [.depthExceeded s.settings.maxDepth]
    abandoned := true }

theorem run_abandon {s : Session} (hs : s.abandoned = false) :
    Evaluation.abandon.run s = (.nil, s.abandon) := by
  obtain ⟨memory, truth, settings, reported, abandoned⟩ := s
  subst hs
  rfl

/-- Once the form is abandoned, there is nothing left to find. -/
theorem run_evaluateWithin_of_abandoned {s : Session} (hs : s.abandoned = true) (room : Nat)
    (expression : Value) : (evaluateWithin room expression).run s = (.nil, s) := by
  cases room with
  | zero =>
    obtain ⟨memory, truth, settings, reported, abandoned⟩ := s
    subst hs
    rfl
  | succ room =>
    simp only [evaluateWithin, run_bind, run_get, hs, if_true, run_pure]

theorem run_evaluateWithin_succ {s : Session} (hs : s.abandoned = false) (room : Nat)
    (expression : Value) :
    (evaluateWithin (room + 1) expression).run s =
      ((Plan.of s.memory expression).follow (evaluateWithin room)).run s := by
  rw [← step_eq_follow]
  simp only [evaluateWithin, run_bind, run_get, hs, Bool.false_eq_true, if_false]


/-! ## What no evaluation changes -/

/-- What an evaluation that does not hit the limit leaves as it was, and what it may report. -/
structure Session.Continues (s s' : Session) : Prop where
  truth : s'.truth = s.truth
  settings : s'.settings = s.settings
  abandoned : s'.abandoned = s.abandoned
  reported : ∃ new, s'.reported = s.reported ++ new ∧ ∀ c ∈ new, c.isDepthExceeded = false

namespace Session.Continues

theorem refl (s : Session) : s.Continues s := ⟨rfl, rfl, rfl, [], by simp⟩

theorem trans {s s' s'' : Session} (h : s.Continues s') (h' : s'.Continues s'') :
    s.Continues s'' := by
  obtain ⟨new, hnew, hshallow⟩ := h.reported
  obtain ⟨new', hnew', hshallow'⟩ := h'.reported
  refine ⟨h'.truth.trans h.truth, h'.settings.trans h.settings, h'.abandoned.trans h.abandoned,
    new ++ new', by rw [hnew', hnew, List.append_assoc], ?_⟩
  intro c hc
  rcases List.mem_append.mp hc with hc | hc
  · exact hshallow c hc
  · exact hshallow' c hc

theorem memory (s : Session) (m : Memory) : s.Continues { s with memory := m } :=
  ⟨rfl, rfl, rfl, [], by simp⟩

theorem failing {condition : Condition} (h : condition.isDepthExceeded = false) (s : Session) :
    s.Continues ((Evaluation.failing condition).run s).2 := by
  obtain ⟨memory, truth, settings, reported, abandoned⟩ := s
  cases abandoned with
  | true => exact refl _
  | false => exact ⟨rfl, rfl, rfl, [condition], rfl, by simpa using h⟩

end Session.Continues

theorem Plan.attempt_continues {evaluate : Value → Session → Ending}
    (h : ∀ (x : Value) (s : Session), s.Continues (evaluate x s).2) (plan : Plan) (s : Session) :
    s.Continues (plan.attempt evaluate s).2 := by
  induction plan generalizing s with
  | value | truth => exact .refl s
  | fault condition shallow => exact .failing shallow s
  | bind key v => exact .memory s _
  | enter parameters arguments body =>
    exact ((Session.Continues.memory s _).trans (h body _)).trans (.memory _ _)
  | part pending expression next ih =>
    have hpart := h expression s
    unfold attempt
    split
    · rename_i v s' hend
      rw [hend] at hpart
      exact hpart.trans (ih v s'.memory s')
    · rename_i waiting s' hend
      rw [hend] at hpart
      exact hpart

theorem evaluateOrStop_continues (room : Nat) (expression : Value) (s : Session) :
    s.Continues (evaluateOrStop room expression s).2 := by
  induction room generalizing expression s with
  | zero => exact .refl s
  | succ room ih => exact Plan.attempt_continues ih _ s

/-! ## Unwinding -/

theorem run_unwindFrom_cons (v : Value) (pending : Pending) (waiting : List Pending)
    (s : Session) :
    (unwindFrom v (pending :: waiting)).run s =
      (unwindFrom ((pending.settle v).run s).1 waiting).run ((pending.settle v).run s).2 := rfl

theorem run_unwind_append (waiting : List Pending) (pending : Pending) (s : Session) :
    (unwind (waiting ++ [pending])).run s =
      (pending.settle ((unwind waiting).run s).1).run ((unwind waiting).run s).2 := by
  unfold unwind unwindFrom
  rw [List.foldlM_append, run_bind]
  simp only [List.foldlM_cons, List.foldlM_nil, bind_pure]

/-- Settling a form changes nothing but the memory. -/
theorem run_settle_session (pending : Pending) (v : Value) (s : Session) :
    ((pending.settle v).run s).2 = { s with memory := ((pending.settle v).run s).2.memory } := by
  cases pending <;> rfl

theorem run_unwindFrom_session (waiting : List Pending) (v : Value) (s : Session) :
    ((unwindFrom v waiting).run s).2 =
      { s with memory := ((unwindFrom v waiting).run s).2.memory } := by
  induction waiting generalizing v s with
  | nil => rfl
  | cons pending waiting ih => rw [run_unwindFrom_cons, ih, run_settle_session pending v s]

/-! ## Forms after the limit is hit

Every part evaluates to the empty list at once.  A plan `Settles` if each of its parts, once it has
come to the empty list or to true, leads to what its `Pending` says and to nothing else. -/

/-- A way to evaluate that finds nothing in a session that has been abandoned. -/
def Idle (evaluate : Value → Evaluation Value) : Prop :=
  ∀ (expression : Value) (s : Session), s.abandoned = true →
    (evaluate expression).run s = (.nil, s)

theorem idle_evaluateWithin (room : Nat) : Idle (evaluateWithin room) :=
  fun expression _ hs => run_evaluateWithin_of_abandoned hs room expression

namespace Plan

/-- What comes of each part of a plan when the form is abandoned. -/
def Settles (truth : Value) : Plan → Prop
  | part pending _ next =>
    (∀ (evaluate : Value → Evaluation Value) (s : Session) (b : Bool), Idle evaluate →
      s.abandoned = true → s.truth = truth →
      ((next (s.boolean b) s.memory).follow evaluate).run s =
        (pending.settle (s.boolean b)).run s) ∧
    ∀ v m, (next v m).Settles truth
  | _ => True

variable {evaluate : Value → Evaluation Value} {s : Session}

theorem run_follow_last_of_abandoned (h : Idle evaluate) (hs : s.abandoned = true)
    (expression : Value) : ((last expression).follow evaluate).run s = (.nil, s) :=
  h expression s hs

theorem run_failing_of_abandoned (hs : s.abandoned = true) (condition : Condition) :
    (failing condition).run s = (.nil, s) := by
  obtain ⟨memory, truth, settings, reported, abandoned⟩ := s
  subst hs
  rfl

theorem run_follow_ofClauses_of_abandoned (h : Idle evaluate) (hs : s.abandoned = true)
    (clauses : List Value) (m : Memory) :
    ((ofClauses clauses m).follow evaluate).run s = (.nil, s) := by
  induction clauses generalizing m with
  | nil => rfl
  | cons clause more ih =>
    rw [ofClauses, run_follow_part, h _ s hs]
    exact ih s.memory

theorem run_follow_ofArguments_of_abandoned (h : Idle evaluate) (hs : s.abandoned = true)
    (parameters body : Value) (before arguments : List Value) :
    ((ofArguments parameters body before arguments).follow evaluate).run s =
      (.nil, { s with memory :=
        ((Memory.making (Store.list (before ++ List.replicate arguments.length .nil))).run
          s.memory).2 }) := by
  induction arguments generalizing before with
  | nil =>
    have hbody := h body { s with memory := s.memory.entered parameters before } hs
    simp only [ofArguments, follow, run_bind, run_enterCall, hbody, run_leaveCall, run_pure,
      List.length_nil, List.replicate_zero, List.append_nil]
    rfl
  | cons argument more ih =>
    rw [ofArguments, run_follow_part, h _ s hs, ih]
    simp only [List.append_assoc, List.singleton_append, List.length_cons, List.replicate_succ]

variable {truth : Value}

theorem settles_last (expression : Value) : (last expression).Settles truth :=
  ⟨fun _ _ _ _ _ _ => rfl, fun _ _ => trivial⟩

theorem settles_ofClauses (clauses : List Value) (m : Memory) :
    (ofClauses clauses m).Settles truth := by
  induction clauses generalizing m with
  | nil => trivial
  | cons clause more ih =>
    constructor
    · intro evaluate s b h hs _
      dsimp only
      split
      · exact run_follow_last_of_abandoned h hs _
      · exact run_follow_ofClauses_of_abandoned h hs more _
    · intro v m
      dsimp only
      split
      · exact settles_last _
      · exact ih m

theorem settles_ofArguments (parameters body : Value) (before arguments : List Value) :
    (ofArguments parameters body before arguments).Settles truth := by
  induction arguments generalizing before with
  | nil => trivial
  | cons argument more ih =>
    refine ⟨?_, fun v _ => ih _⟩
    intro evaluate s b h hs _
    rw [run_follow_ofArguments_of_abandoned h hs]
    simp only [List.append_assoc, List.singleton_append]
    rfl

/-- What the abandoned parts of a plan come to, if true is a symbol. -/
theorem number?_boolean {label : Label} (hs : s.truth = .symbol label) (b : Bool) :
    (s.boolean b).number? = none := by
  cases b with
  | false => rfl
  | true => rw [Session.boolean, if_pos rfl, hs]; rfl

theorem isTruthy_boolean {label : Label} (hs : s.truth = .symbol label) (b : Bool) :
    (s.boolean b).isTruthy = b := by
  cases b with
  | false => rfl
  | true => rw [Session.boolean, if_pos rfl, hs]; rfl

theorem settles_ofSpecial (label : Label) (m : Memory) (form : SpecialForm)
    (whole arguments : Value) : (ofSpecial m form whole arguments).Settles (.symbol label) := by
  cases form with
  | quote | lambda => trivial
  | define | not => exact ⟨fun _ _ _ _ _ _ => rfl, fun _ _ => trivial⟩
  | cond => exact settles_ofClauses _ m
  | and =>
    constructor
    · intro evaluate s b h hs _
      dsimp only
      split
      · exact run_follow_last_of_abandoned h hs _
      · rfl
    · intro v m
      dsimp only
      split
      · exact settles_last _
      · trivial
  | ifElse =>
    constructor
    · intro evaluate s b h hs _
      dsimp only
      split
      · exact run_follow_last_of_abandoned h hs _
      · exact run_follow_last_of_abandoned h hs _
    · intro v m
      dsimp only
      split
      · exact settles_last _
      · exact settles_last _
  | or =>
    constructor
    · intro evaluate s b h hs htruth
      dsimp only
      rw [isTruthy_boolean htruth]
      cases b with
      | false => exact run_follow_last_of_abandoned h hs _
      | true => rfl
    · intro v m
      dsimp only
      split
      · trivial
      · exact settles_last _

/-- A form with two operands settles if its end does, with the empty list for the second operand
where the first was abandoned. -/
theorem settles_operands {first : Pending} {second : Value → Pending}
    {finish : Value → Value → Plan}
    (hfirst : ∀ (evaluate : Value → Evaluation Value) (s : Session) (b : Bool),
      s.abandoned = true → s.truth = truth →
      ((finish (s.boolean b) .nil).follow evaluate).run s = (first.settle (s.boolean b)).run s)
    (hsecond : ∀ (a : Value) (evaluate : Value → Evaluation Value) (s : Session) (b : Bool),
      s.abandoned = true → s.truth = truth →
      ((finish a (s.boolean b)).follow evaluate).run s =
        ((second a).settle (s.boolean b)).run s)
    (hfinish : ∀ a b, (finish a b).Settles truth) (m : Memory) (arguments : Value) :
    (operands first second m arguments finish).Settles truth := by
  constructor
  · intro evaluate s b h hs htruth
    rw [run_follow_part, h _ s hs]
    exact hfirst evaluate s b hs htruth
  · intro a m
    refine ⟨?_, fun b _ => hfinish a b⟩
    intro evaluate s b _ hs htruth
    exact hsecond a evaluate s b hs htruth

theorem onValues_of_number?_eq_none (operation : Arithmetic) (a : Value) {b : Value}
    (hb : b.number? = none) : operation.onValues a b = .error .notANumber := by
  unfold Arithmetic.onValues
  rw [hb]
  cases a.number? <;> rfl

theorem holdsOnValues_of_number?_eq_none (relation : Comparison) (a : Value) {b : Value}
    (hb : b.number? = none) : relation.onValues a b = .error .notANumber := by
  unfold Comparison.onValues
  rw [hb]
  cases a.number? <;> rfl

theorem settles_ofOperator (label : Label) (m : Memory) (name : String) (operator : Operator)
    (whole arguments : Value) :
    (ofOperator m name operator whole arguments).Settles (.symbol label) := by
  cases operator with
  | special form => exact settles_ofSpecial label m form whole arguments
  | arithmetic operation =>
    apply settles_operands
    · intro evaluate s b hs _
      rw [onValues_of_number?_eq_none operation _ rfl]
      exact run_failing_of_abandoned hs _
    · intro a evaluate s b hs htruth
      rw [onValues_of_number?_eq_none operation a (number?_boolean htruth b)]
      exact run_failing_of_abandoned hs _
    · intro a b
      cases operation.onValues a b <;> trivial
  | comparison relation =>
    apply settles_operands
    · intro evaluate s b hs _
      rw [holdsOnValues_of_number?_eq_none relation _ rfl]
      exact run_failing_of_abandoned hs _
    · intro a evaluate s b hs htruth
      rw [holdsOnValues_of_number?_eq_none relation a (number?_boolean htruth b)]
      exact run_failing_of_abandoned hs _
    · intro a b
      cases relation.onValues a b <;> trivial
  | equality =>
    apply settles_operands
    · intro evaluate s b _ _
      cases s.boolean b <;> rfl
    · intro a evaluate s b _ _
      rfl
    · intro a b
      trivial

/-- Every part of an expression settles as its plan says. -/
theorem settles_of (label : Label) (m : Memory) (expression : Value) :
    (Plan.of m expression).Settles (.symbol label) := by
  have hfunction : ∀ function arguments, (ofFunction m function arguments).Settles
      (.symbol label) := fun function arguments => settles_ofArguments _ _ _ _
  cases expression with
  | nil | number | string | symbol => trivial
  | pair address =>
    unfold Plan.of ofCall
    dsimp only
    split
    · split
      · exact settles_ofOperator label m _ _ _ _
      · split
        · split
          · exact hfunction _ _
          · trivial
        · trivial
    · split
      · exact hfunction _ _
      · trivial
    · trivial

end Plan

/-! ## What the waiting forms come to -/

/-- Whether a form gives true, if the part it waits for is true or is the empty list. -/
def Pending.comesTrue (truth : Value) (b : Bool) : Pending → Bool
  | passing | binding _ => b
  | dropping | listing _ _ => false
  | inverting => !b
  | comparing other => other.equalAtoms (if b then truth else .nil)

/-- Whether the outermost of some waiting forms gives true when the limit is hit. -/
def comesTrue (truth : Value) (waiting : List Pending) : Bool :=
  waiting.foldl (fun b pending => pending.comesTrue truth b) false

theorem run_settle_boolean {s : Session} {label : Label} (hs : s.truth = .symbol label) (b : Bool)
    (pending : Pending) :
    ((pending.settle (s.boolean b)).run s).1 = s.boolean (pending.comesTrue s.truth b) := by
  cases pending with
  | passing | dropping | comparing | listing => rfl
  | inverting =>
    show s.boolean (!(s.boolean b).isTruthy) = _
    rw [Plan.isTruthy_boolean hs]
    rfl
  | binding arguments =>
    simp only [Pending.settle, run_bind, run_store, run_inMemory_define]
    rfl

theorem run_unwindFrom_boolean {s : Session} {label : Label} (hs : s.truth = .symbol label)
    (b : Bool) (waiting : List Pending) :
    ((unwindFrom (s.boolean b) waiting).run s).1 =
      s.boolean (waiting.foldl (fun b pending => pending.comesTrue s.truth b) b) := by
  induction waiting generalizing b s with
  | nil => rfl
  | cons pending waiting ih =>
    rw [run_unwindFrom_cons, run_settle_boolean hs, run_settle_session]
    exact ih (s := { s with memory := ((pending.settle (s.boolean b)).run s).2.memory }) hs _

/-- What an abandoned form comes to: true or the empty list. -/
theorem run_unwind_fst {s : Session} {label : Label} (hs : s.truth = .symbol label)
    (waiting : List Pending) :
    ((unwind waiting).run s).1 = s.boolean (comesTrue s.truth waiting) :=
  run_unwindFrom_boolean hs false waiting

/-! ## Calls and waiting forms -/

theorem run_settle_pop (pending : Pending) (v : Value) (s : Session) :
    (pending.settle v).run { s with memory := s.memory.pop } =
      (((pending.settle v).run s).1,
        { s with memory := ((pending.settle v).run s).2.memory.pop }) := by
  cases pending with
  | passing | dropping | inverting | comparing | listing => rfl
  | binding arguments =>
    simp only [Pending.settle, run_bind, run_store, run_inMemory_define, Memory.pop_defined]
    rfl

/-- It makes no difference whether the waiting forms are settled inside a call or outside. -/
theorem run_unwindFrom_pop (waiting : List Pending) (v : Value) (s : Session) :
    (unwindFrom v waiting).run { s with memory := s.memory.pop } =
      (((unwindFrom v waiting).run s).1,
        { s with memory := ((unwindFrom v waiting).run s).2.memory.pop }) := by
  induction waiting generalizing v s with
  | nil => rfl
  | cons pending waiting ih =>
    rw [run_unwindFrom_cons, run_unwindFrom_cons, run_settle_pop, run_settle_session pending v s]
    exact ih _ { s with memory := ((pending.settle v).run s).2.memory }

/-! ## The two evaluators agree -/

/-- Go on from an end: settle the forms that were waiting, if there was no room for their part. -/
def Ending.resume : Ending → Value × Session
  | (.ok v, s) => (v, s)
  | (.error waiting, s) => (unwind waiting).run s.abandon

theorem Ending.resume_pop (ending : Except (List Pending) Value) (s : Session) :
    Ending.resume (ending, { s with memory := s.memory.pop }) =
      ((Ending.resume (ending, s)).1,
        { (Ending.resume (ending, s)).2 with
          memory := (Ending.resume (ending, s)).2.memory.pop }) := by
  cases ending with
  | ok v => rfl
  | error waiting =>
    have h := run_unwindFrom_pop waiting .nil s.abandon
    have hsession := run_unwindFrom_session waiting .nil s.abandon
    unfold resume unwind
    rw [hsession]
    exact h

theorem Plan.follow_eq_resume {evaluate : Value → Evaluation Value}
    {stopping : Value → Session → Ending} {label : Label} (hidle : Idle evaluate)
    (hcontinues : ∀ (x : Value) (s : Session), s.Continues (stopping x s).2)
    (hagree : ∀ (x : Value) (s : Session), s.abandoned = false → s.truth = .symbol label →
      (evaluate x).run s = (stopping x s).resume)
    (plan : Plan) (hplan : plan.Settles (.symbol label)) (s : Session)
    (hs : s.abandoned = false) (htruth : s.truth = .symbol label) :
    (plan.follow evaluate).run s = (plan.attempt stopping s).resume := by
  induction plan generalizing s with
  | value | truth | fault | bind => rfl
  | enter parameters arguments body =>
    have hbody := hagree body { s with memory := s.memory.entered parameters arguments } hs htruth
    simp only [follow, attempt, run_bind, run_enterCall, run_leaveCall, run_pure, hbody]
    exact (Ending.resume_pop _ _).symm
  | part pending expression next ih =>
    have hpart := hagree expression s hs htruth
    have hkept := hcontinues expression s
    unfold attempt
    split
    · rename_i v s' hend
      rw [hend] at hpart hkept
      rw [run_follow_part, hpart]
      exact ih v s'.memory (hplan.2 v s'.memory) s' (hkept.abandoned.trans hs)
        (hkept.truth.trans htruth)
    · rename_i waiting s' hend
      rw [hend] at hpart hkept
      have htruth' : s'.abandon.truth = .symbol label := hkept.truth.trans htruth
      -- What the part comes to is true or the empty list, in a session already abandoned.
      have hvalue := run_unwind_fst htruth' waiting
      have hsession : ((unwind waiting).run s'.abandon).2 = _ :=
        run_unwindFrom_session waiting .nil s'.abandon
      rw [run_follow_part, hpart]
      show _ = (unwind (waiting ++ [pending])).run s'.abandon
      rw [run_unwind_append]
      show ((next ((unwind waiting).run s'.abandon).1 ((unwind waiting).run s'.abandon).2.memory).follow
        evaluate).run ((unwind waiting).run s'.abandon).2 = _
      rw [hvalue, hsession]
      exact hplan.1 evaluate
        { s'.abandon with memory := ((unwindFrom .nil waiting).run s'.abandon).2.memory }
        (comesTrue s'.abandon.truth waiting) hidle rfl htruth'

/-- The evaluator of a session does what the stopping one does.  If that one stops, it goes on from
there and settles the forms that were waiting. -/
theorem evaluateWithin_eq_resume {label : Label} (room : Nat) (expression : Value) (s : Session)
    (hs : s.abandoned = false) (htruth : s.truth = .symbol label) :
    (evaluateWithin room expression).run s = (evaluateOrStop room expression s).resume := by
  induction room generalizing expression s with
  | zero => exact run_abandon hs
  | succ room ih =>
    rw [run_evaluateWithin_succ hs]
    exact Plan.follow_eq_resume (idle_evaluateWithin room) (evaluateOrStop_continues room)
      (fun x s hs htruth => ih x s hs htruth) _ (Plan.settles_of label _ _) s hs htruth

end DynLisp
