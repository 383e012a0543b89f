/-
  Proofs/Reports.lean --- what has been reported is of no consequence.

  WHAT THIS FILE IS FOR.  A session keeps all conditions that it has reported until a
  host takes them, and while a form is evaluated it remembers whether the form has
  been abandoned.  The latter is over when the evaluation is, and the former is only
  ever added to and never looked at.  So a session that has hit the depth limit goes
  on like one that never has: `evaluate_reports_once`.

  THE FRAME.  An `Indifferent` computation does the same whatever has been reported
  before it, and its own reports come after those.  This is kept by sequencing and by
  plans, and so by evaluation in whatever depth.
-/
import DynLisp.Proofs.Abandonment
import DynLisp.Proofs.Separation

set_option autoImplicit false

namespace DynLisp

open Evaluation

namespace Session

/-- The session with something reported earlier. -/
def heard (earlier : List Condition) (s : Session) : Session :=
  { s with reported := earlier ++ s.reported }

/-- The session with nothing reported. -/
def unheard (s : Session) : Session := { s with reported := [] }

theorem heard_unheard (s : Session) : s.unheard.heard s.reported = s := by
  obtain ⟨memory, truth, settings, reported, abandoned⟩ := s
  simp [heard, unheard]

end Session

/-! ## Computations that do not look at the reports -/

/-- What has been reported before makes no difference to the computation, and comes before all that
it reports. -/
def Indifferent {α : Type} (act : Evaluation α) : Prop :=
  ∀ (earlier : List Condition) (s : Session),
    act.run (s.heard earlier) = ((act.run s).1, (act.run s).2.heard earlier)

namespace Indifferent

variable {α β : Type}

theorem pure (a : α) : Indifferent (Pure.pure a : Evaluation α) := fun _ _ => rfl

theorem bind {act : Evaluation α} {next : α → Evaluation β} (h : Indifferent act)
    (hnext : ∀ a, Indifferent (next a)) : Indifferent (act >>= next) := by
  intro earlier s
  rw [run_bind, run_bind, h earlier s, hnext]

theorem inMemory (act : StateM Memory α) : Indifferent (Evaluation.inMemory act) :=
  fun _ _ => rfl

theorem report (condition : Condition) : Indifferent (Evaluation.report condition) := by
  intro earlier s
  obtain ⟨memory, truth, settings, reported, abandoned⟩ := s
  cases abandoned with
  | true => rfl
  | false =>
    exact congrArg (fun reported => ((), Session.mk memory truth settings reported false))
      (List.append_assoc earlier reported [condition])

theorem failing (condition : Condition) : Indifferent (Evaluation.failing condition) :=
  (report condition).bind fun _ => .pure _

theorem forM {act : α → Evaluation Unit} (h : ∀ a, Indifferent (act a)) (items : List α) :
    Indifferent (items.forM act) := by
  rw [List.forM_eq_forM]
  induction items with
  | nil => exact .pure ()
  | cons item more ih =>
    rw [List.forM_cons]
    exact (h item).bind fun _ => ih

theorem mapM {act : α → Evaluation β} (h : ∀ a, Indifferent (act a)) (items : List α) :
    Indifferent (items.mapM act) := by
  induction items with
  | nil => exact .pure []
  | cons item more ih =>
    rw [List.mapM_cons]
    exact (h item).bind fun _ => ih.bind fun _ => .pure _

/-! ## Evaluation -/

section Plans

variable {evaluate : Value → Evaluation Value} (h : ∀ x, Indifferent (evaluate x))
include h

/-- A plan is followed by the parts that it names, and nothing else looks at the session. -/
theorem follow (plan : Plan) : Indifferent (plan.follow evaluate) := by
  induction plan with
  | value v => exact .pure v
  | truth b => exact fun _ _ => rfl
  | fault condition _ => exact failing condition
  | bind key v => exact inMemory _
  | enter parameters arguments body =>
    have henter : Indifferent (Plan.enterCall parameters arguments) :=
      (inMemory _).bind fun _ => inMemory _
    exact henter.bind fun _ => (h body).bind fun _ => (inMemory _).bind fun _ => .pure _
  | part pending expression next ih =>
    intro earlier s
    rw [run_follow_part, run_follow_part, h expression earlier s]
    exact ih _ _ earlier _

end Plans

theorem abandon : Indifferent Evaluation.abandon := by
  intro earlier s
  obtain ⟨memory, truth, settings, reported, abandoned⟩ := s
  cases abandoned with
  | true => rfl
  | false =>
    exact congrArg (fun reported => (Value.nil, Session.mk memory truth settings reported true))
      (List.append_assoc earlier reported [.depthExceeded settings.maxDepth])

theorem evaluateWithin (room : Nat) (expression : Value) :
    Indifferent (Evaluation.evaluateWithin room expression) := by
  induction room generalizing expression with
  | zero => exact abandon
  | succ room ih =>
    intro earlier s
    cases habandoned : s.abandoned with
    | true =>
      have habandoned' : (s.heard earlier).abandoned = true := habandoned
      rw [run_evaluateWithin_of_abandoned habandoned, run_evaluateWithin_of_abandoned habandoned']
    | false =>
      have habandoned' : (s.heard earlier).abandoned = false := habandoned
      rw [run_evaluateWithin_succ habandoned, run_evaluateWithin_succ habandoned']
      exact follow ih _ earlier s

theorem evaluate (expression : Value) : Indifferent (Evaluation.evaluate expression) := by
  intro earlier s
  have hwithin := evaluateWithin s.settings.maxDepth expression earlier s.rested
  rw [run_evaluate, run_evaluate]
  have hrested : (s.heard earlier).rested = s.rested.heard earlier := rfl
  have hsettings : (s.heard earlier).settings = s.settings := rfl
  rw [hrested, hsettings, hwithin]
  rfl

/-! ## Forms and texts -/

theorem evaluateForm (form : Form) : Indifferent (Evaluation.evaluateForm form) := by
  refine (forM (fun error => report (.unreadable error)) form.errors).bind fun _ => ?_
  cases form.outcome with
  | ok datum => exact (inMemory _).bind fun v => evaluate v
  | error trouble => exact .pure Value.nil

theorem evaluateNext (stream : Token.Stream) :
    Indifferent (Evaluation.evaluateNext stream) := by
  unfold Evaluation.evaluateNext
  split
  · exact .pure (none, stream)
  · exact (evaluateForm stream.read).bind fun v => .pure (some v, stream.read.after)

theorem streamOf (text : String) : Indifferent (Evaluation.streamOf text) := fun _ _ => rfl

theorem evaluateText (text : String) : Indifferent (Evaluation.evaluateText text) :=
  (streamOf text).bind fun stream => mapM evaluateForm stream.readAll

theorem evaluateFirst (text : String) : Indifferent (Evaluation.evaluateFirst text) :=
  (streamOf text).bind fun stream => (evaluateNext stream).bind fun next => .pure (next.1.getD .nil)

/-- Nothing that a host does, short of asking for them, depends on the reports. -/
theorem answer (visit : Visit) : Indifferent visit.answer := by
  cases visit with
  | evaluate expression => exact (evaluate expression).bind fun v => .pure [v]
  | evaluateFirst text => exact (evaluateFirst text).bind fun v => .pure [v]
  | evaluateText text => exact evaluateText text
  | evaluateNext stream => exact (evaluateNext stream).bind fun next => .pure next.1.toList
  | push symbols values => exact (inMemory _).bind fun _ => .pure []
  | pop => exact (inMemory _).bind fun _ => .pure []
  | lookup | globalBindings => exact fun _ _ => rfl
  | define | load | cons | list => exact (inMemory _).bind fun v => .pure [v]

end Indifferent

/-! ## What evaluation may report -/

/-- The condition is about the text of a form, and not about what the form means. -/
def Condition.isUnreadable : Condition → Bool
  | unreadable _ => true
  | _ => false

namespace Plan

/-- No fault of the plan is one of a text. -/
def SparesText : Plan → Prop
  | fault condition _ => condition.isUnreadable = false
  | part _ _ next => ∀ v m, (next v m).SparesText
  | value _ | truth _ | bind _ _ | enter _ _ _ => True

theorem sparesText_last (expression : Value) : (last expression).SparesText := fun _ _ => trivial

theorem sparesText_ofClauses (clauses : List Value) (m : Memory) :
    (ofClauses clauses m).SparesText := by
  induction clauses generalizing m with
  | nil => trivial
  | cons clause more ih =>
    intro v m'
    dsimp only
    split
    · exact sparesText_last _
    · exact ih m'

theorem sparesText_ofSpecial (m : Memory) (form : SpecialForm) (whole arguments : Value) :
    (ofSpecial m form whole arguments).SparesText := by
  cases form with
  | quote | lambda | define | not => simp [ofSpecial, SparesText]
  | cond => exact sparesText_ofClauses _ m
  | and | or | ifElse =>
    intro v m'
    dsimp only
    split <;> first | exact sparesText_last _ | trivial

theorem sparesText_ofArithmetic (name : String) (result : Except ArithmeticFault Number) :
    (ofArithmetic name result).SparesText := by
  cases result with
  | ok n => trivial
  | error trouble => rfl

theorem sparesText_ofComparison (name : String) (result : Except ArithmeticFault Bool) :
    (ofComparison name result).SparesText := by
  cases result with
  | ok b => trivial
  | error trouble => rfl

theorem sparesText_ofOperator (m : Memory) (name : String) (operator : Operator)
    (whole arguments : Value) : (ofOperator m name operator whole arguments).SparesText := by
  cases operator with
  | special form => exact sparesText_ofSpecial m form whole arguments
  | equality => exact fun _ _ _ _ => trivial
  | arithmetic operation => exact fun a _ b _ => sparesText_ofArithmetic name _
  | comparison relation => exact fun a _ b _ => sparesText_ofComparison name _

theorem sparesText_ofArguments (parameters body : Value) (before arguments : List Value) :
    (ofArguments parameters body before arguments).SparesText := by
  induction arguments generalizing before with
  | nil => trivial
  | cons argument more ih => exact fun v _ => ih (before ++ [v])

theorem sparesText_of (m : Memory) (expression : Value) : (Plan.of m expression).SparesText := by
  cases expression with
  | nil | number | string | symbol => trivial
  | pair a =>
    unfold Plan.of ofCall
    dsimp only
    split
    · split
      · exact sparesText_ofOperator m _ _ _ _
      · split
        · split
          · exact sparesText_ofArguments _ _ _ _
          · rfl
        · rfl
    · split
      · exact sparesText_ofArguments _ _ _ _
      · rfl
    · rfl

end Plan

/-- All that a session has reported since it was another one is about what forms mean. -/
def Session.Remarks (s s' : Session) : Prop :=
  ∃ new, s'.reported = s.reported ++ new ∧ ∀ condition ∈ new, condition.isUnreadable = false

namespace Session.Remarks

variable {s s' s'' : Session}

theorem of_eq (h : s'.reported = s.reported) : s.Remarks s' := ⟨[], by simp [h], by simp⟩

theorem trans (h : s.Remarks s') (h' : s'.Remarks s'') : s.Remarks s'' := by
  obtain ⟨new, hnew, hmeaning⟩ := h
  obtain ⟨new', hnew', hmeaning'⟩ := h'
  refine ⟨new ++ new', by rw [hnew', hnew, List.append_assoc], ?_⟩
  exact fun condition hc => (List.mem_append.mp hc).elim (hmeaning condition) (hmeaning' condition)

theorem report {condition : Condition} (h : condition.isUnreadable = false) (s : Session) :
    s.Remarks ((Evaluation.report condition).run s).2 := by
  obtain ⟨memory, truth, settings, reported, abandoned⟩ := s
  cases abandoned with
  | true => exact of_eq rfl
  | false => exact ⟨[condition], rfl, by simpa using h⟩

theorem follow {evaluate : Value → Evaluation Value}
    (h : ∀ x s, Session.Remarks s ((evaluate x).run s).2) {plan : Plan} (hplan : plan.SparesText)
    (s : Session) : s.Remarks ((plan.follow evaluate).run s).2 := by
  induction plan generalizing s with
  | value | truth | bind => exact of_eq rfl
  | fault condition _ => exact report hplan s
  | enter parameters arguments body =>
    exact h body ((Plan.enterCall parameters arguments).run s).2
  | part pending expression next ih =>
    rw [run_follow_part]
    exact (h expression s).trans (ih _ _ (hplan _ _) _)

theorem evaluateWithin (room : Nat) (expression : Value) (s : Session) :
    s.Remarks ((Evaluation.evaluateWithin room expression).run s).2 := by
  induction room generalizing expression s with
  | zero =>
    have hdepth : (Condition.depthExceeded s.settings.maxDepth).isUnreadable = false := rfl
    exact report hdepth s
  | succ room ih =>
    cases habandoned : s.abandoned with
    | true =>
      rw [run_evaluateWithin_of_abandoned habandoned]
      exact of_eq rfl
    | false =>
      rw [run_evaluateWithin_succ habandoned]
      exact follow ih (Plan.sparesText_of s.memory expression) s

/-- To evaluate an expression reports nothing about a text. -/
theorem evaluate (expression : Value) (s : Session) :
    s.Remarks ((Evaluation.evaluate expression).run s).2 := by
  rw [run_evaluate]
  exact evaluateWithin s.settings.maxDepth expression s.rested

end Session.Remarks

/-! ## What a host observes -/

/-- What a host puts into a session. -/
inductive Input where
  | visit (visit : Visit)
  /-- take what has been reported, so that nothing is -/
  | takeReported

/-- What the session does, and the values that it gives. -/
def Input.answer : Input → Evaluation (List Value)
  | .visit made => made.answer
  | takeReported => do
    modify fun s => s.takeReported.2
    return []

/-- What an input comes to: the values that it gives, what the memory then is, and what has been
reported meanwhile. -/
structure Observation where
  values : List Value
  memory : Memory
  reported : List Condition

/-- What a host observes of some inputs, one after another. -/
def observe : List Input → Session → List Observation
  | [], _ => []
  | input :: more, s =>
    let s' := (input.answer.run s).2
    ⟨(input.answer.run s).1, s'.memory, s'.reported.drop s.reported.length⟩ :: observe more s'

/-- Inputs cannot tell what has been reported before. -/
theorem observe_heard (inputs : List Input) (earlier : List Condition) (s : Session) :
    observe inputs (s.heard earlier) = observe inputs s := by
  induction inputs generalizing earlier s with
  | nil => rfl
  | cons input more ih =>
    cases input with
    | takeReported =>
      -- Either way nothing is reported afterwards.
      have htaken : ∀ s : Session, observe (.takeReported :: more) s =
          ⟨[], s.memory, [].drop s.reported.length⟩ :: observe more s.unheard := fun _ => rfl
      rw [htaken, htaken, List.drop_nil, List.drop_nil]
      rfl
    | visit made =>
      have hnew : ((made.answer.run s).2.heard earlier).reported.drop
          (s.heard earlier).reported.length =
            (made.answer.run s).2.reported.drop s.reported.length := by
        simp [Session.heard]
      simp only [observe, Input.answer, Indifferent.answer made earlier s]
      rw [hnew, ih]
      rfl

/-! ## What one expression reports -/

/-- An expression adds to what has been reported.  Only the last of what it adds can be that it goes
too deep. -/
theorem Session.Valid.reported_evaluate {s : Session} (h : s.Valid) (expression : Value) :
    ∃ new, ((evaluate expression).run s).2.reported = s.reported ++ new ∧
      ∀ condition ∈ new.dropLast, condition.isDepthExceeded = false := by
  have hkept := evaluateOrStop_continues s.settings.maxDepth expression s
  obtain ⟨new, hnew, hshallow⟩ := hkept.reported
  rcases hend : evaluateOrStop s.settings.maxDepth expression s with ⟨_ | _, s'⟩
  all_goals rw [hend] at hnew
  case ok v =>
    rw [h.run_evaluate_of_ok hend]
    exact ⟨new, hnew, fun condition hc => hshallow condition (List.dropLast_subset new hc)⟩
  case error waiting =>
    rw [h.run_evaluate_of_error hend]
    refine ⟨new ++ [.depthExceeded s.settings.maxDepth], ?_, ?_⟩
    · rw [← List.append_assoc]
      exact congrArg (· ++ _) hnew
    · rw [List.dropLast_concat]
      exact hshallow

theorem countP_isDepthExceeded_le_one {new : List Condition}
    (h : ∀ condition ∈ new.dropLast, condition.isDepthExceeded = false) :
    new.countP Condition.isDepthExceeded ≤ 1 := by
  rcases List.eq_nil_or_concat new with rfl | ⟨init, last, rfl⟩
  · exact Nat.zero_le 1
  · rw [List.concat_eq_append] at h ⊢
    rw [List.dropLast_concat] at h
    have hinit : init.countP Condition.isDepthExceeded = 0 :=
      List.countP_eq_zero.mpr fun condition hc => Bool.eq_false_iff.mp (h condition hc)
    rw [List.countP_append, hinit, Nat.zero_add]
    exact List.countP_le_length

theorem eq_nil_of_depthExceeded_before {before after : List Condition} {limit : Nat}
    (h : ∀ condition ∈ (before ++ .depthExceeded limit :: after).dropLast,
      condition.isDepthExceeded = false) : after = [] := by
  cases after with
  | nil => rfl
  | cons condition after =>
    have hmem : .depthExceeded limit ∈
        (before ++ .depthExceeded limit :: condition :: after).dropLast := by
      rw [List.dropLast_append_of_ne_nil (List.cons_ne_nil _ _)]
      simp
    exact absurd (h _ hmem) (by simp [Condition.isDepthExceeded])

/-- Whatever has been asked of a session, the next expression adds to what has been reported, at the
end of it and at most once that it goes too deep, and nothing after that.  From then on the session
cannot be told from one with the same memory, the same symbol for true and the same settings that
has never reported anything: whatever is put into the two of them, the values, the memories and the
reports are the same. -/
theorem evaluate_reports_once {s : Session} (h : s.Reachable) (expression : Value) :
    let s' := ((evaluate expression).run s).2
    (∃ new, s'.reported = s.reported ++ new ∧
      new.countP Condition.isDepthExceeded ≤ 1 ∧
      ∀ before limit after, new = before ++ .depthExceeded limit :: after → after = []) ∧
    ∀ t : Session, t.memory = s'.memory → t.truth = s'.truth → t.settings = s'.settings →
      t.reported = [] → t.abandoned = false → ∀ inputs, observe inputs s' = observe inputs t := by
  intro s'
  constructor
  · obtain ⟨new, hreported, hshallow⟩ := h.valid.reported_evaluate expression
    refine ⟨new, hreported, countP_isDepthExceeded_le_one hshallow, ?_⟩
    rintro before limit after rfl
    exact eq_nil_of_depthExceeded_before hshallow
  · intro t hmemory htruth hsettings hreported habandoned inputs
    have ht : t = s'.unheard := by
      obtain ⟨memory, truth, settings, reported, abandoned⟩ := t
      subst hmemory htruth hsettings hreported habandoned
      rfl
    rw [ht, ← observe_heard inputs s'.reported s'.unheard, s'.heard_unheard]

/-- A session that has abandoned `(not 1)` abandons it again, and reports it as if for the first
time. -/
theorem evaluate_reports_once_again :
    let s' := ((evaluate (.pair 3)).run Session.holdingNot).2
    let inputs : List Input := [.visit (.evaluate (.pair 3)), .takeReported]
    Session.holdingNot.Reachable ∧ s'.reported = [.depthExceeded 1] ∧
      observe inputs s' = observe inputs s'.unheard ∧
      (observe inputs s').map Observation.reported = [[.depthExceeded 1], []] := by
  have halike := (evaluate_reports_once reachable_holdingNot (.pair 3)).2
    ((evaluate (.pair 3)).run Session.holdingNot).2.unheard rfl rfl rfl rfl rfl
  exact ⟨reachable_holdingNot, by decide +kernel, halike _, by decide +kernel⟩

end DynLisp
