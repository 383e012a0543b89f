/-
  Proofs/Abandonment.lean --- what becomes of a form that goes too deep.

  WHAT THIS FILE IS FOR.  A form that exceeds the depth limit is abandoned, but it
  is not left: every form around the place goes on with the empty list for the
  part that was never evaluated.  So an abandoned form need not come to the empty
  list (`value_of_exceeds`), and it may still define names (`bindings_of_exceeds`).
  Both are told here by the forms that were waiting when the limit was hit.
-/
import DynLisp.Proofs.Bindings

set_option autoImplicit false

namespace DynLisp

open Evaluation

/-! ## Reports -/

namespace Session

/-- What the evaluation of an expression reports. -/
def reportsOf (s : Session) (expression : Value) : List Condition :=
  ((evaluate expression).run s).2.reported.drop s.reported.length

/-- The evaluation of an expression reports that it goes too deep. -/
def Exceeds (s : Session) (expression : Value) : Prop :=
  ∃ limit, .depthExceeded limit ∈ s.reportsOf expression

theorem Continues.drop_reported {s s' : Session} (h : s.Continues s') :
    s'.reported = s.reported ++ s'.reported.drop s.reported.length ∧
      ∀ limit, .depthExceeded limit ∉ s'.reported.drop s.reported.length := by
  obtain ⟨new, hnew, hshallow⟩ := h.reported
  rw [hnew, List.drop_left]
  refine ⟨rfl, ?_⟩
  intro limit hlimit
  exact absurd (hshallow _ hlimit) (by simp [Condition.isDepthExceeded])

theorem boolean_congr {s s' : Session} (h : s'.truth = s.truth) (b : Bool) :
    s'.boolean b = s.boolean b := by
  rw [boolean, boolean, h]

namespace Valid

variable {s s' : Session} {expression v : Value} {waiting : List Pending} (h : s.Valid)
include h

theorem run_evaluate_of_ok
    (hend : evaluateOrStop s.settings.maxDepth expression s = (.ok v, s')) :
    (evaluate expression).run s = (v, s') := by
  have hkept := evaluateOrStop_continues s.settings.maxDepth expression s
  rw [h.run_evaluate_eq_resume, hend]
  rw [hend] at hkept
  obtain ⟨memory, truth, settings, reported, abandoned⟩ := s'
  obtain rfl : abandoned = false := hkept.abandoned.trans h.resting
  rfl

/-- The evaluation goes on from where the limit was hit, and nothing but the memory is touched. -/
theorem run_evaluate_of_error
    (hend : evaluateOrStop s.settings.maxDepth expression s = (.error waiting, s')) :
    (evaluate expression).run s =
      (s.boolean (comesTrue s.truth waiting),
        { s' with
          memory := ((unwind waiting).run s'.abandon).2.memory
          reported := s'.reported ++ [.depthExceeded s.settings.maxDepth]
          abandoned := false }) := by
  have hkept := evaluateOrStop_continues s.settings.maxDepth expression s
  rw [h.run_evaluate_eq_resume, hend]
  rw [hend] at hkept
  have htruth : s'.abandon.truth = .symbol ⟨0, truthName⟩ := hkept.truth.trans h.truth
  have hvalue := run_unwind_fst htruth waiting
  have hsession := run_unwindFrom_session waiting .nil s'.abandon
  show (((unwind waiting).run s'.abandon).1, ((unwindFrom .nil waiting).run s'.abandon).2.rested) = _
  rw [hvalue, hsession]
  rw [boolean_congr (show s'.abandon.truth = s.truth from hkept.truth), ← hkept.settings,
    ← hkept.truth]
  rfl

theorem reportsOf_of_ok (hend : evaluateOrStop s.settings.maxDepth expression s = (.ok v, s')) :
    s.reportsOf expression = s'.reported.drop s.reported.length := by
  rw [reportsOf, h.run_evaluate_of_ok hend]

theorem reportsOf_of_error
    (hend : evaluateOrStop s.settings.maxDepth expression s = (.error waiting, s')) :
    s.reportsOf expression =
      s'.reported.drop s.reported.length ++ [.depthExceeded s.settings.maxDepth] := by
  have hkept := evaluateOrStop_continues s.settings.maxDepth expression s
  rw [hend] at hkept
  have hle : s.reported.length ≤ s'.reported.length := by
    rw [hkept.drop_reported.1, List.length_append]
    exact Nat.le_add_right _ _
  rw [reportsOf, h.run_evaluate_of_error hend]
  exact List.drop_append_of_le_length hle

/-- All that is reported up to where the stopping evaluator ends is reported. -/
theorem drop_prefix_reportsOf (expression : Value) :
    (evaluateOrStop s.settings.maxDepth expression s).2.reported.drop s.reported.length <+:
      s.reportsOf expression := by
  rcases hend : evaluateOrStop s.settings.maxDepth expression s with ⟨_ | _, s'⟩
  case ok v =>
    have hreports := h.reportsOf_of_ok hend
    exact ⟨[], by rw [hreports, List.append_nil]⟩
  case error waiting =>
    rw [h.reportsOf_of_error hend]
    exact List.prefix_append _ _

/-- An expression goes too deep exactly if the stopping evaluator stops. -/
theorem exceeds_iff :
    s.Exceeds expression ↔
      ∃ waiting s', evaluateOrStop s.settings.maxDepth expression s = (.error waiting, s') := by
  have hkept := evaluateOrStop_continues s.settings.maxDepth expression s
  rcases hend : evaluateOrStop s.settings.maxDepth expression s with ⟨_ | _, s'⟩
  case ok v =>
    rw [hend] at hkept
    constructor
    · rintro ⟨limit, hlimit⟩
      rw [h.reportsOf_of_ok hend] at hlimit
      exact absurd hlimit (hkept.drop_reported.2 limit)
    · rintro ⟨waiting, s'', heq⟩
      exact absurd (congrArg Prod.fst heq) (by simp)
  case error waiting =>
    refine ⟨fun _ => ⟨waiting, s', rfl⟩, fun _ => ⟨s.settings.maxDepth, ?_⟩⟩
    rw [h.reportsOf_of_error hend]
    exact List.mem_append_right _ (List.mem_singleton.mpr rfl)

end Valid

end Session

/-! ## The value -/

/-- Only `not` and `=` make something of a part that was abandoned. -/
theorem comesTrue_eq_false (truth : Value) {waiting : List Pending}
    (h : ∀ pending ∈ waiting, pending ≠ .inverting ∧ ∀ other, pending ≠ .comparing other) :
    comesTrue truth waiting = false := by
  unfold comesTrue
  induction waiting with
  | nil => rfl
  | cons pending waiting ih =>
    obtain ⟨⟨hinverting, hcomparing⟩, hwaiting⟩ := List.forall_mem_cons.mp h
    have hfalse : pending.comesTrue truth false = false := by
      cases pending with
      | passing | dropping | binding | listing => rfl
      | inverting => exact absurd rfl hinverting
      | comparing other => exact absurd rfl (hcomparing other)
    rw [List.foldl_cons, hfalse]
    exact ih hwaiting

/-- An abandoned form comes to true or to the empty list, and the forms that were waiting say to
which. -/
theorem value_of_exceeds {s : Session} (h : s.Reachable) {expression : Value}
    (hexceeds : s.Exceeds expression) :
    ∃ waiting stopped,
      evaluateOrStop s.settings.maxDepth expression s = (.error waiting, stopped) ∧
      ((evaluate expression).run s).1 = s.boolean (comesTrue s.truth waiting) ∧
      (((evaluate expression).run s).1 = .nil ↔ comesTrue s.truth waiting = false) := by
  obtain ⟨waiting, stopped, hend⟩ := h.valid.exceeds_iff.mp hexceeds
  have hvalue : ((evaluate expression).run s).1 = s.boolean (comesTrue s.truth waiting) := by
    rw [h.valid.run_evaluate_of_error hend]
  refine ⟨waiting, stopped, hend, hvalue, ?_⟩
  rw [hvalue]
  cases comesTrue s.truth waiting with
  | false => exact ⟨fun _ => rfl, fun _ => rfl⟩
  | true =>
    rw [Session.boolean, if_pos rfl, h.valid.truth]
    simp

/-- A session with no room for a part, that holds `(not 1)` in the cell at address 3. -/
def Session.holdingNot : Session :=
  (Session.start { maxDepth := 1 }).after (.load (.ofList [.symbol "not", .number (.integer 1)]))

theorem reachable_holdingNot : Session.holdingNot.Reachable :=
  .after (.start { maxDepth := 1 }) (.load _) trivial

theorem value_of_exceeds_not :
    ∃ waiting stopped,
      evaluateOrStop 1 (.pair 3) Session.holdingNot = (.error waiting, stopped) ∧
      ((evaluate (.pair 3)).run Session.holdingNot).1 =
        Session.holdingNot.boolean (comesTrue Session.holdingNot.truth waiting) ∧
      (((evaluate (.pair 3)).run Session.holdingNot).1 = .nil ↔
        comesTrue Session.holdingNot.truth waiting = false) := by
  have hexceeds : Session.holdingNot.Exceeds (.pair 3) := ⟨1, by decide +kernel⟩
  exact value_of_exceeds reachable_holdingNot hexceeds

/-- The negation of a part that was abandoned is true. -/
theorem abandoned_not_comes_true :
    Session.holdingNot.Reachable ∧ Session.holdingNot.memory.Visible (.pair 3) ∧
      Session.holdingNot.Exceeds (.pair 3) ∧
      ((evaluate (.pair 3)).run Session.holdingNot).1 ≠ .nil := by
  refine ⟨reachable_holdingNot, by decide +kernel, ⟨1, by decide +kernel⟩, ?_⟩
  decide +kernel

/-! ## The bindings -/

/-- What the waiting forms define, the innermost first, if the first of them gets true or the empty
list. -/
def Session.writesFrom (s : Session) : Bool → List Pending → Bindings
  | _, [] => []
  | b, .binding arguments :: outer =>
    (s.memory.store.first arguments, s.boolean b) :: s.writesFrom b outer
  | b, pending :: outer => s.writesFrom (pending.comesTrue s.truth b) outer

/-- What is still defined once the depth limit is hit. -/
def Session.lateWrites (s : Session) (waiting : List Pending) : Bindings :=
  s.writesFrom false waiting

/-- The waiting forms find their arguments as they left them. -/
theorem Session.writesFrom_congr {s s' : Session} (h : s.memory.Evolves s'.memory)
    (htruth : s'.truth = s.truth) {waiting : List Pending}
    (hwaiting : ∀ pending ∈ waiting, pending.Visible s.memory) (b : Bool) :
    s'.writesFrom b waiting = s.writesFrom b waiting := by
  induction waiting generalizing b with
  | nil => cases b <;> rfl
  | cons pending outer ih =>
    obtain ⟨hpending, houter⟩ := List.forall_mem_cons.mp hwaiting
    have hboolean := boolean_congr htruth b
    cases pending with
    | binding arguments =>
      have hfirst : s'.memory.store.first arguments = s.memory.store.first arguments := by
        cases arguments with
        | pair a => exact congrArg Cell.first (h.cells a hpending).2
        | nil | number | string | symbol => rfl
      simp only [writesFrom, hfirst, hboolean, ih houter]
    | passing | dropping | inverting | comparing | listing =>
      simp only [writesFrom, htruth, ih houter]

/-- To settle a form is to define what it was to bind, if it was to bind anything. -/
theorem globalBindings_settle {s : Session} (h : s.memory.Valid) (pending : Pending) (b : Bool)
    (outer : List Pending) :
    Bindings.assignAll s.memory.globalBindings (s.writesFrom b (pending :: outer)) =
      Bindings.assignAll ((pending.settle (s.boolean b)).run s).2.memory.globalBindings
        (s.writesFrom (pending.comesTrue s.truth b) outer) := by
  cases pending with
  | passing | dropping | inverting | comparing => rfl
  | listing before missing =>
    have hgrows := s.memory.grows_list (before ++ s.boolean b :: List.replicate missing .nil)
    have hbindings := h.globalBindings_eq_of_grows hgrows
    show _ = Bindings.assignAll (Memory.globalBindings _) _
    rw [← hbindings]
    rfl
  | binding arguments =>
    have hdefined := h.globalBindings_defined (s.memory.store.first arguments) (s.boolean b)
    simp only [Pending.settle, run_bind, run_store, run_inMemory_define, hdefined]
    rfl

theorem globalBindings_unwindFrom {s : Session} {label : Label} (htruth : s.truth = .symbol label)
    (h : s.memory.Valid) {waiting : List Pending}
    (hwaiting : ∀ pending ∈ waiting, pending.Visible s.memory) (b : Bool) :
    ((unwindFrom (s.boolean b) waiting).run s).2.memory.globalBindings =
      Bindings.assignAll s.memory.globalBindings (s.writesFrom b waiting) := by
  induction waiting generalizing b s with
  | nil => cases b <;> rfl
  | cons pending outer ih =>
    obtain ⟨hpending, houter⟩ := List.forall_mem_cons.mp hwaiting
    have hsettled := pending.settle_yields htruth h hpending (s.boolean_visible htruth b _)
    have hsession := run_settle_session pending (s.boolean b) s
    have htruth' : ((pending.settle (s.boolean b)).run s).2.truth = s.truth := by
      rw [hsession]
    rw [run_unwindFrom_cons, globalBindings_settle h, run_settle_boolean htruth,
      ← Session.boolean_congr htruth', ih (htruth'.trans htruth) hsettled.valid
        (fun other hother => (houter other hother).evolves hsettled.evolves),
      Session.writesFrom_congr hsettled.evolves htruth' houter]

/-- Where the limit is hit, the frames of the calls and all cells that can be seen stay.  The
bindings do so exactly if what the waiting forms define is redundant. -/
theorem bindings_of_exceeds {s : Session} (h : s.Reachable) {expression : Value}
    (hx : s.memory.Visible expression) (hexceeds : s.Exceeds expression) :
    ∃ waiting stopped,
      evaluateOrStop s.settings.maxDepth expression s = (.error waiting, stopped) ∧
      let m := stopped.memory
      let m' := ((evaluate expression).run s).2.memory
      m'.environment.calls = m.environment.calls ∧
        (∀ a, m.Visible (.pair a) → m'.store.cell a = m.store.cell a) ∧
        m'.globalBindings = Bindings.assignAll m.globalBindings (stopped.lateWrites waiting) ∧
        (m'.globalBindings = m.globalBindings ↔
          Bindings.Redundant m.globalBindings (stopped.lateWrites waiting)) := by
  obtain ⟨waiting, stopped, hend⟩ := h.valid.exceeds_iff.mp hexceeds
  have hkept := evaluateOrStop_continues s.settings.maxDepth expression s
  have hsound := evaluateOrStop_sound s.settings.maxDepth expression s h.valid.truth
    h.valid.memory hx
  rw [hend] at hkept hsound
  obtain ⟨hvalid, -, hwaiting⟩ := hsound
  have htruth : stopped.abandon.truth = .symbol ⟨0, Session.truthName⟩ :=
    hkept.truth.trans h.valid.truth
  have hunwound := unwindFrom_yields (s := stopped.abandon) (v := .nil) htruth hvalid hwaiting
    trivial
  have hbindings := globalBindings_unwindFrom (s := stopped.abandon) htruth hvalid hwaiting false
  have hwrites : stopped.abandon.writesFrom false waiting = stopped.lateWrites waiting :=
    @Session.writesFrom_congr stopped stopped.abandon (.refl _) rfl waiting hwaiting false
  rw [hwrites] at hbindings
  have hafter : ((evaluate expression).run s).2.memory =
      ((unwind waiting).run stopped.abandon).2.memory := by
    rw [h.valid.run_evaluate_of_error hend]
  refine ⟨waiting, stopped, hend, ?_⟩
  rw [hafter]
  refine ⟨hunwound.evolves.calls, fun a ha => (hunwound.evolves.cells a ha).2, hbindings, ?_⟩
  rw [← Bindings.assignAll_eq_self_iff]
  exact ⟨fun heq => hbindings.symm.trans heq, fun heq => hbindings.trans heq⟩

/-- A session with room for one part, in which `x` is 1.  It holds `(define x (+ 1 1))` in the cell
at address 9. -/
def Session.holdingDefine : Session :=
  let sum : Datum := .ofList [.symbol "+", .number (.integer 1), .number (.integer 1)]
  Session.start { maxDepth := 2 }
    |>.after (.define (.symbol ⟨1, "x"⟩) (.number (.integer 1)))
    |>.after (.load (.ofList [.symbol "define", .symbol "x", sum]))

theorem reachable_holdingDefine : Session.holdingDefine.Reachable := by
  unfold Session.holdingDefine
  refine .after (.after (.start _) _ ?_) _ ?_
  · exact ⟨trivial, trivial⟩
  · trivial

theorem bindings_of_exceeds_define :
    ∃ waiting stopped,
      evaluateOrStop 2 (.pair 9) Session.holdingDefine = (.error waiting, stopped) ∧
      ((evaluate (.pair 9)).run Session.holdingDefine).2.memory.globalBindings =
        Bindings.assignAll stopped.memory.globalBindings (stopped.lateWrites waiting) := by
  have hvisible : Session.holdingDefine.memory.Visible (.pair 9) := by decide +kernel
  have hexceeds : Session.holdingDefine.Exceeds (.pair 9) := ⟨2, by decide +kernel⟩
  obtain ⟨waiting, stopped, hend, -, -, hbindings, -⟩ :=
    bindings_of_exceeds reachable_holdingDefine hvisible hexceeds
  exact ⟨waiting, stopped, hend, hbindings⟩

/-- A definition whose value was abandoned destroys the one that was there. -/
theorem abandoned_define_overwrites :
    Session.holdingDefine.Reachable ∧ Session.holdingDefine.memory.Visible (.pair 9) ∧
      Session.holdingDefine.Exceeds (.pair 9) ∧
      (evaluateOrStop 2 (.pair 9) Session.holdingDefine).2.memory.lookupName "x" =
        some (.number (.integer 1)) ∧
      ((evaluate (.pair 9)).run Session.holdingDefine).2.memory.lookupName "x" = some .nil := by
  refine ⟨reachable_holdingDefine, by decide +kernel, ⟨2, by decide +kernel⟩, ?_, ?_⟩
  · decide +kernel
  · decide +kernel

end DynLisp
