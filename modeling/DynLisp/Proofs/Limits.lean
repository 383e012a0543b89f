/-
  Proofs/Limits.lean --- one evaluation under two depth limits.

  WHAT THIS FILE IS FOR.  A limit cuts evaluations short and does nothing else.  The
  stopping evaluator does the same with more room up to where it stops
  (`evaluateOrStop_extends`), and the limit in the settings of a session never
  reaches it (`evaluateOrStop_limited`).  So what fits under one limit is the same
  under a larger one, and what does not fit is reported as far as it went.
-/
import DynLisp.Proofs.Abandonment
import Mathlib.Data.List.Infix

set_option autoImplicit false

namespace DynLisp

open Evaluation

/-! ## More room -/

/-- An end that goes at least as far as another: to the same value, or from where that one stopped
on. -/
def Ending.Extends : Ending → Ending → Prop
  | (.ok v, s), ending => ending = (.ok v, s)
  | (.error _, s), ending => s.reported <+: ending.2.reported

theorem Session.Continues.prefix_reported {s s' : Session} (h : s.Continues s') :
    s.reported <+: s'.reported := by
  obtain ⟨new, hnew, -⟩ := h.reported
  exact ⟨new, hnew.symm⟩

/-- The body of a call goes as far as the call does. -/
theorem Ending.Extends.called {ending ending' : Ending} (h : ending.Extends ending') :
    Ending.Extends (ending.1, (Plan.leaveCall.run ending.2).2)
      (ending'.1, (Plan.leaveCall.run ending'.2).2) := by
  obtain ⟨result, s⟩ := ending
  cases result with
  | ok v =>
    obtain rfl : ending' = (.ok v, s) := h
    exact rfl
  | error waiting => exact h

/-- To follow a plan goes as far as the evaluation of its parts does. -/
theorem Plan.attempt_extends {stopping stopping' : Value → Session → Ending}
    (hextends : ∀ (x : Value) (s : Session), (stopping x s).Extends (stopping' x s))
    (hcontinues : ∀ (x : Value) (s : Session), s.Continues (stopping' x s).2)
    (plan : Plan) (s : Session) : (plan.attempt stopping s).Extends (plan.attempt stopping' s) := by
  induction plan generalizing s with
  | value | truth | fault | bind => exact rfl
  | enter parameters arguments body => exact (hextends body _).called
  | part pending expression next ih =>
    have hpart := hextends expression s
    rcases hend : stopping expression s with ⟨_ | _, s₁⟩
    case ok v =>
      rw [hend] at hpart
      have hend' : stopping' expression s = (.ok v, s₁) := hpart
      simp only [attempt, hend, hend']
      exact ih v s₁.memory s₁
    case error waiting =>
      rw [hend] at hpart
      have hreported : s₁.reported <+: (stopping' expression s).2.reported := hpart
      simp only [attempt, hend]
      -- With more room the rest of the plan may run, and it can only add reports.
      refine hreported.trans ?_
      rcases hend' : stopping' expression s with ⟨_ | _, s₂⟩
      case ok v => exact (attempt_continues hcontinues (next v s₂.memory) s₂).prefix_reported
      case error waiting' => exact List.prefix_rfl

/-- With more room, the stopping evaluator goes at least as far. -/
theorem evaluateOrStop_extends {room room' : Nat} (hle : room ≤ room') (expression : Value)
    (s : Session) :
    (evaluateOrStop room expression s).Extends (evaluateOrStop room' expression s) := by
  induction room generalizing room' expression s with
  | zero => exact (evaluateOrStop_continues room' expression s).prefix_reported
  | succ room ih =>
    obtain ⟨room', rfl⟩ := Nat.exists_eq_add_of_le' hle
    have hle' : room ≤ room' + room := Nat.le_add_left room room'
    exact Plan.attempt_extends (fun x s => ih hle' x s) (evaluateOrStop_continues _) _ s

/-! ## Another limit -/

/-- The session with another depth limit. -/
def Session.limited (s : Session) (limit : Nat) : Session :=
  { s with settings := { s.settings with maxDepth := limit } }

/-- An end in which the session has another depth limit. -/
def Ending.limited (ending : Ending) (limit : Nat) : Ending := (ending.1, ending.2.limited limit)

theorem run_failing_limited (condition : Condition) (s : Session) (limit : Nat) :
    (failing condition).run (s.limited limit) =
      (((failing condition).run s).1, ((failing condition).run s).2.limited limit) := by
  obtain ⟨memory, truth, settings, reported, abandoned⟩ := s
  cases abandoned <;> rfl

/-- Plans do not look at the limit. -/
theorem Plan.attempt_limited {stopping : Value → Session → Ending} {limit : Nat}
    (h : ∀ (x : Value) (s : Session), stopping x (s.limited limit) = (stopping x s).limited limit)
    (plan : Plan) (s : Session) :
    plan.attempt stopping (s.limited limit) = (plan.attempt stopping s).limited limit := by
  induction plan generalizing s with
  | value | truth | bind => rfl
  | fault condition shallow =>
    have hrun := run_failing_limited condition s limit
    show Ending.reached _ = _
    rw [hrun]
    rfl
  | enter parameters arguments body =>
    have hbody : stopping body ((enterCall parameters arguments).run (s.limited limit)).2 =
      (stopping body ((enterCall parameters arguments).run s).2).limited limit :=
      h body ((enterCall parameters arguments).run s).2
    simp only [attempt]
    rw [hbody]
    rfl
  | part pending expression next ih =>
    have hpart := h expression s
    rcases hend : stopping expression s with ⟨_ | _, s₁⟩
    case ok v =>
      have hend' : stopping expression (s.limited limit) = (.ok v, s₁.limited limit) := by
        rw [hpart, hend]
        rfl
      simp only [attempt, hend, hend']
      exact ih v s₁.memory s₁
    case error waiting =>
      have hend' : stopping expression (s.limited limit) = (.error waiting, s₁.limited limit) := by
        rw [hpart, hend]
        rfl
      simp only [attempt, hend, hend']
      rfl

/-- The stopping evaluator is told how much room there is, and does not look at the settings. -/
theorem evaluateOrStop_limited (room : Nat) (expression : Value) (s : Session) (limit : Nat) :
    evaluateOrStop room expression (s.limited limit) =
      (evaluateOrStop room expression s).limited limit := by
  induction room generalizing expression s with
  | zero => rfl
  | succ room ih => exact Plan.attempt_limited (fun x s => ih x s) _ s

/-! ## Two limits -/

theorem Session.Valid.limited {s : Session} (h : s.Valid) (limit : Nat) :
    (s.limited limit).Valid := ⟨h.memory, h.truth, h.resting⟩

/-- What fits under a limit is the same under any larger one.  What does not fit reports nothing
under the smaller limit that it does not report under the larger one, except for the limit itself. -/
theorem evaluate_under_limits {s : Session} (h : s.Reachable) (expression : Value) {N M : Nat}
    (hle : N ≤ M) :
    (¬ (s.limited N).Exceeds expression →
      ((evaluate expression).run (s.limited M)).1 = ((evaluate expression).run (s.limited N)).1 ∧
      ((evaluate expression).run (s.limited M)).2.memory =
        ((evaluate expression).run (s.limited N)).2.memory ∧
      (s.limited M).reportsOf expression = (s.limited N).reportsOf expression) ∧
    ((s.limited N).Exceeds expression →
      ∃ before, (s.limited N).reportsOf expression = before ++ [.depthExceeded N] ∧
        before <+: (s.limited M).reportsOf expression) := by
  have hN := h.valid.limited N
  have hM := h.valid.limited M
  have hextends := evaluateOrStop_extends hle expression s
  have hendM := evaluateOrStop_limited M expression s M
  rcases hend : evaluateOrStop N expression s with ⟨_ | _, s'⟩
  case ok v =>
    rw [hend] at hextends
    have hendN : evaluateOrStop N expression (s.limited N) = (.ok v, s'.limited N) := by
      rw [evaluateOrStop_limited, hend]
      rfl
    have hendM' : evaluateOrStop M expression (s.limited M) = (.ok v, s'.limited M) := by
      rw [hendM, show evaluateOrStop M expression s = (.ok v, s') from hextends]
      rfl
    constructor
    · intro _
      rw [hN.run_evaluate_of_ok hendN, hM.run_evaluate_of_ok hendM', hN.reportsOf_of_ok hendN,
        hM.reportsOf_of_ok hendM']
      exact ⟨rfl, rfl, rfl⟩
    · intro hexceeds
      obtain ⟨waiting, s'', hstop⟩ := hN.exceeds_iff.mp hexceeds
      exact absurd (congrArg Prod.fst (hendN.symm.trans hstop)) (by simp)
  case error waiting =>
    rw [hend] at hextends
    have hendN : evaluateOrStop N expression (s.limited N) = (.error waiting, s'.limited N) := by
      rw [evaluateOrStop_limited, hend]
      rfl
    constructor
    · intro hfits
      exact absurd (hN.exceeds_iff.mpr ⟨waiting, _, hendN⟩) hfits
    · intro _
      have hreports := hN.reportsOf_of_error hendN
      refine ⟨s'.reported.drop s.reported.length, hreports, ?_⟩
      have hreported : s'.reported <+: (evaluateOrStop M expression s).2.reported := hextends
      have hreports' := hM.drop_prefix_reportsOf expression
      rw [show (s.limited M).settings.maxDepth = M from rfl, hendM] at hreports'
      exact (hreported.drop s.reported.length).trans hreports'

/-- A session that holds `(+ (foo) (not 1))` in the cell at address 7. -/
def Session.holdingSum : Session :=
  let unknown : Datum := .ofList [.symbol "foo"]
  let negation : Datum := .ofList [.symbol "not", .number (.integer 1)]
  (Session.start {}).after (.load (.ofList [.symbol "+", unknown, negation]))

/-- Under the smaller of two limits, the unknown function is all that is reported before the
limit. -/
theorem evaluate_under_limits_sum :
    Session.holdingSum.Reachable ∧ 2 ≤ 3 ∧ (Session.holdingSum.limited 2).Exceeds (.pair 7) ∧
      ¬ (Session.holdingSum.limited 3).Exceeds (.pair 7) ∧
      ∃ before,
        (Session.holdingSum.limited 2).reportsOf (.pair 7) = before ++ [.depthExceeded 2] ∧
          before <+: (Session.holdingSum.limited 3).reportsOf (.pair 7) := by
  have hreachable : Session.holdingSum.Reachable := .after (.start {}) (.load _) trivial
  have hexceeds : (Session.holdingSum.limited 2).Exceeds (.pair 7) := ⟨2, by decide +kernel⟩
  refine ⟨hreachable, by decide, hexceeds, ?_, ?_⟩
  · have hreports : (Session.holdingSum.limited 3).reportsOf (.pair 7) =
        [.unknownFunction "foo", .arithmetic "+" .notANumber] := by decide +kernel
    rintro ⟨limit, hlimit⟩
    rw [hreports] at hlimit
    simp at hlimit
  · exact (evaluate_under_limits hreachable (.pair 7) (by decide : 2 ≤ 3)).2 hexceeds

end DynLisp
