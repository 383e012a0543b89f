/-
  Proofs/Correspondence.lean --- one evaluation in two memories.

  WHAT THIS FILE IS FOR.  If two memories agree on what is like what, then evaluation
  cannot tell them apart: like expressions come to like values, the same is reported,
  and the memories agree afterwards (`Likeness.evaluate_alike`).

  THE STEP AND THE RUN.  The plans of like expressions are `Alike` (`alike_of`), so that
  they name like parts in the same order.  To follow them keeps up the correspondence if
  the evaluation of their parts does (`follow_corresponds`), and by induction on the room
  that is left evaluation does.
-/
import DynLisp.Proofs.Likeness
import DynLisp.Proofs.Reports

set_option autoImplicit false

namespace DynLisp

open Evaluation Memory

variable {m m' : Memory}

/-! ## Plans -/

/-- Two plans do like things. -/
inductive Plan.Alike (L : Likeness m m') : Plan → Plan → Prop where
  | value {v w : Value} (h : L.Like v w) : Alike L (.value v) (.value w)
  | truth (b : Bool) : Alike L (.truth b) (.truth b)
  | fault (condition : Condition) (shallow : condition.isDepthExceeded = false) :
    Alike L (.fault condition shallow) (.fault condition shallow)
  | bind {key key' v w : Value} (hkey : L.Like key key') (hv : L.Like v w) :
    Alike L (.bind key v) (.bind key' w)
  | enter {parameters parameters' body body' : Value} {arguments arguments' : List Value}
      (hparameters : L.Like parameters parameters')
      (harguments : List.Forall₂ L.Like arguments arguments') (hbody : L.Like body body') :
    Alike L (.enter parameters arguments body) (.enter parameters' arguments' body')
  | part {pending pending' : Pending} {x x' : Value} {next next' : Value → Memory → Plan}
      (hx : L.Like x x')
      (hnext : ∀ v w n n', L.Like v w → L.Agree n n' → Alike L (next v n) (next' w n')) :
    Alike L (.part pending x next) (.part pending' x' next')

namespace Plan

variable {L : Likeness m m'} {n n' : Memory}

theorem alike_last {x x' : Value} (hx : L.Like x x') : (last x).Alike L (last x') :=
  .part hx fun _ _ _ _ hv _ => .value hv

theorem alike_operands {first first' : Pending} {second second' : Value → Pending}
    {arguments arguments' : Value} {finish finish' : Value → Value → Plan} (h : L.Agree n n')
    (harguments : L.Like arguments arguments')
    (hfinish : ∀ a a' b b', L.Like a a' → L.Like b b' → (finish a b).Alike L (finish' a' b')) :
    (operands first second n arguments finish).Alike L
      (operands first' second' n' arguments' finish') :=
  .part (h.first harguments) fun a a' _ _ ha hm =>
    .part (hm.second harguments) fun b b' _ _ hb _ => hfinish a a' b b' ha hb

theorem alike_ofClauses {clauses clauses' : List Value} (h : L.Agree n n')
    (hclauses : List.Forall₂ L.Like clauses clauses') :
    (ofClauses clauses n).Alike L (ofClauses clauses' n') := by
  induction hclauses generalizing n n' with
  | nil => exact .value L.nil
  | cons hclause _ ih =>
    refine .part (h.first hclause) fun v w k k' hv hm => ?_
    rw [(L.resembles hv).isTruthy_eq]
    split
    · exact alike_last (hm.second hclause)
    · exact ih hm

theorem alike_ofArguments {parameters parameters' body body' : Value}
    {before before' arguments arguments' : List Value} (hparameters : L.Like parameters parameters')
    (hbody : L.Like body body') (hbefore : List.Forall₂ L.Like before before')
    (harguments : List.Forall₂ L.Like arguments arguments') :
    (ofArguments parameters body before arguments).Alike L
      (ofArguments parameters' body' before' arguments') := by
  induction harguments generalizing before before' with
  | nil => exact .enter hparameters hbefore hbody
  | cons hargument _ ih =>
    refine .part hargument fun v w _ _ hv _ => ih ?_
    exact List.rel_append hbefore (.cons hv .nil)

theorem alike_ofSpecial {whole whole' arguments arguments' : Value} (h : L.Agree n n')
    (form : SpecialForm) (hwhole : L.Like whole whole') (harguments : L.Like arguments arguments') :
    (ofSpecial n form whole arguments).Alike L (ofSpecial n' form whole' arguments') := by
  have hfirst := h.first harguments
  cases form with
  | quote => exact .value hfirst
  | lambda => exact .value hwhole
  | define =>
    exact .part (h.second harguments) fun _ _ _ _ hv hm => .bind (hm.first harguments) hv
  | not =>
    refine .part hfirst fun v w _ _ hv _ => ?_
    rw [(L.resembles hv).isTruthy_eq]
    exact .truth _
  | cond => exact alike_ofClauses h (h.elements harguments)
  | and =>
    refine .part hfirst fun v w _ _ hv hm => ?_
    rw [(L.resembles hv).isTruthy_eq]
    split
    · exact alike_last (hm.second harguments)
    · exact .value L.nil
  | or =>
    refine .part hfirst fun v w _ _ hv hm => ?_
    rw [(L.resembles hv).isTruthy_eq]
    split
    · exact .truth true
    · exact alike_last (hm.second harguments)
  | ifElse =>
    refine .part hfirst fun v w _ _ hv hm => ?_
    rw [(L.resembles hv).isTruthy_eq]
    split
    · exact alike_last (hm.second harguments)
    · exact alike_last (hm.third harguments)

theorem alike_ofOperator {whole whole' arguments arguments' : Value} (h : L.Agree n n')
    (name : String) (operator : Operator) (hwhole : L.Like whole whole')
    (harguments : L.Like arguments arguments') :
    (ofOperator n name operator whole arguments).Alike L
      (ofOperator n' name operator whole' arguments') := by
  cases operator with
  | special form => exact alike_ofSpecial h form hwhole harguments
  | arithmetic operation =>
    refine alike_operands h harguments fun a a' b b' ha hb => ?_
    have hsame : operation.onValues a b = operation.onValues a' b' := by
      unfold Arithmetic.onValues
      rw [(L.resembles ha).number?_eq, (L.resembles hb).number?_eq]
    rw [hsame]
    cases operation.onValues a' b' with
    | ok result => exact .value (L.number result)
    | error trouble => exact .fault _ rfl
  | comparison relation =>
    refine alike_operands h harguments fun a a' b b' ha hb => ?_
    have hsame : relation.onValues a b = relation.onValues a' b' := by
      unfold Comparison.onValues
      rw [(L.resembles ha).number?_eq, (L.resembles hb).number?_eq]
    rw [hsame]
    cases relation.onValues a' b' with
    | ok result => exact .truth result
    | error trouble => exact .fault _ rfl
  | equality =>
    refine alike_operands h harguments fun a a' b b' ha hb => ?_
    rw [(L.resembles ha).equalAtoms_eq (L.resembles hb)]
    exact .truth _

theorem alike_ofFunction {function function' arguments arguments' : Value} (h : L.Agree n n')
    (hfunction : L.Like function function') (harguments : L.Like arguments arguments') :
    (ofFunction n function arguments).Alike L (ofFunction n' function' arguments') :=
  alike_ofArguments (h.second hfunction) (h.third hfunction) .nil (h.elements harguments)

/-- The plans of like lists do like things. -/
theorem alike_ofCall {whole whole' : Value} (h : L.Agree n n') (hwhole : L.Like whole whole') :
    (ofCall n whole).Alike L (ofCall n' whole') := by
  have hhead := h.first hwhole
  have harguments := h.rest hwhole
  unfold ofCall
  rw [h.content_eq hwhole]
  generalize n.store.first whole = head at hhead
  generalize n'.store.first whole' = head' at hhead
  cases L.resembles hhead with
  | nil | number | string => exact .fault _ rfl
  | pair a b =>
    dsimp only
    rw [h.isLambda_eq hhead]
    split
    · exact alike_ofFunction h hhead harguments
    · exact .fault _ rfl
  | @symbol label label' htext =>
    dsimp only
    rw [htext]
    cases Operator.find? label'.text with
    | some operator => exact alike_ofOperator h _ operator hwhole harguments
    | none =>
      have hbound := h.lookup hhead
      dsimp only
      generalize n.lookup (.symbol label) = bound at hbound
      generalize n'.lookup (.symbol label') = bound' at hbound
      cases hbound with
      | none => exact .fault _ rfl
      | some hfunction =>
        dsimp only
        rw [h.isLambda_eq hfunction]
        split
        · exact alike_ofFunction h hfunction harguments
        · exact .fault _ rfl

/-- The plans of like expressions do like things. -/
theorem alike_of {x x' : Value} (h : L.Agree n n') (hx : L.Like x x') :
    (Plan.of n x).Alike L (Plan.of n' x') := by
  cases L.resembles hx with
  | nil | number | string => exact .value hx
  | pair => exact alike_ofCall h hx
  | @symbol label label' htext =>
    have hbound := h.lookup hx
    refine .value ?_
    generalize n.lookup (.symbol label) = bound at hbound
    generalize n'.lookup (.symbol label') = bound' at hbound
    cases hbound with
    | none => exact L.nil
    | some hlike => exact hlike

end Plan

/-! ## Sessions -/

/-- Two sessions with memories that agree, which are otherwise the same. -/
structure Session.Alike (L : Likeness m m') (s s' : Session) : Prop where
  memory : L.Agree s.memory s'.memory
  truth : L.Like s.truth s'.truth
  settings : s'.settings = s.settings
  reported : s'.reported = s.reported
  abandoned : s'.abandoned = s.abandoned

/-- Two sessions have come of two others, and have given like values. -/
structure Follows (L : Likeness m m') (s s' : Session) (ended ended' : Value × Session) : Prop where
  value : L.Like ended.1 ended'.1
  session : Session.Alike L ended.2 ended'.2
  evolves : s.memory.Evolves ended.2.memory
  evolves' : s'.memory.Evolves ended'.2.memory

variable {L : Likeness m m'} {s s' : Session} {v w : Value}

namespace Session.Alike

theorem boolean (h : Alike L s s') (b : Bool) : L.Like (s.boolean b) (s'.boolean b) := by
  cases b with
  | false => exact L.nil
  | true => exact h.truth

theorem report (h : Alike L s s') (condition : Condition) :
    Alike L ((Evaluation.report condition).run s).2 ((Evaluation.report condition).run s').2 := by
  show Alike L (if s.abandoned then s else _) (if s'.abandoned then s' else _)
  rw [h.abandoned]
  split
  · exact h
  · exact { h with reported := congrArg (· ++ [condition]) h.reported, abandoned := rfl }

/-- The same sessions, with other memories that agree. -/
theorem remembering (h : Alike L s s') {n n' : Memory} (hm : L.Agree n n') :
    Alike L { s with memory := n } { s' with memory := n' } := { h with memory := hm }

end Session.Alike

namespace Follows

theorem here (h : Session.Alike L s s') (hv : L.Like v w) : Follows L s s' (v, s) (w, s') :=
  ⟨hv, h, .refl _, .refl _⟩

theorem after {middle middle' : Session} {ended ended' : Value × Session}
    (h' : Follows L middle middle' ended ended') (h : s.memory.Evolves middle.memory)
    (h'' : s'.memory.Evolves middle'.memory) : Follows L s s' ended ended' :=
  ⟨h'.value, h'.session, h.trans h'.evolves, h''.trans h'.evolves'⟩

theorem failing (h : Session.Alike L s s') (condition : Condition) :
    Follows L s s' ((Evaluation.failing condition).run s)
      ((Evaluation.failing condition).run s') := by
  refine ⟨L.nil, h.report condition, ?_, ?_⟩
  · rw [memory_failing]
    exact .refl _
  · rw [memory_failing]
    exact .refl _

theorem defined (h : Session.Alike L s s') {key key' : Value} (hkey : L.Like key key')
    (hv : L.Like v w) :
    Follows L s s' ((inMemory (Memory.define key v)).run s)
      ((inMemory (Memory.define key' w)).run s') := by
  have hm := h.memory
  rw [run_inMemory_define, run_inMemory_define]
  exact ⟨hv, h.remembering (hm.defined hkey hv),
    (hm.valid.defined (hm.visible hkey) (hm.visible hv)).evolves,
    (hm.valid'.defined (hm.visible' hkey) (hm.visible' hv)).evolves⟩

/-- To follow plans that do like things keeps up the correspondence if the evaluation of their parts
does. -/
theorem follow {evaluate evaluate' : Value → Evaluation Value}
    (hparts : ∀ {x x' : Value} {s s' : Session}, Session.Alike L s s' → L.Like x x' →
      Follows L s s' ((evaluate x).run s) ((evaluate' x').run s'))
    {plan plan' : Plan} (hplan : plan.Alike L plan') (h : Session.Alike L s s') :
    Follows L s s' ((plan.follow evaluate).run s) ((plan'.follow evaluate').run s') := by
  induction hplan generalizing s s' with
  | value hv => exact here h hv
  | truth b => exact here h (h.boolean b)
  | fault condition _ => exact failing h condition
  | bind hkey hv => exact defined h hkey hv
  | @enter parameters parameters' body body' arguments arguments' hparameters harguments hbody =>
    -- The body runs in two memories that agree, and what becomes of them agrees from outside too.
    have hentered := h.memory.entered hparameters harguments
    have hended := hparts (h.remembering hentered) hbody
    have hleft := h.memory.left hended.session.memory hended.evolves hended.evolves'
    exact ⟨hended.value, hended.session.remembering hleft,
      h.memory.valid.evolves_left hended.evolves, h.memory.valid'.evolves_left hended.evolves'⟩
  | part hx _ ih =>
    have hpart := hparts h hx
    rw [run_follow_part, run_follow_part]
    have hrest := ih _ _ _ _ hpart.value hpart.session.memory hpart.session
    exact hrest.after hpart.evolves hpart.evolves'

theorem abandon (h : Session.Alike L s s') :
    Follows L s s' (Evaluation.abandon.run s) (Evaluation.abandon.run s') := by
  have hreported := failing h (.depthExceeded s.settings.maxDepth)
  have hsettings := h.settings
  have hrun : ∀ s : Session, Evaluation.abandon.run s =
      (.nil, { ((Evaluation.failing (.depthExceeded s.settings.maxDepth)).run s).2 with
        abandoned := true }) := fun _ => rfl
  rw [hrun, hrun, hsettings]
  exact ⟨L.nil, { hreported.session with abandoned := rfl }, hreported.evolves,
    hreported.evolves'⟩

/-- Evaluation in whatever depth keeps up the correspondence. -/
theorem evaluateWithin (room : Nat) {x x' : Value} (h : Session.Alike L s s')
    (hx : L.Like x x') :
    Follows L s s' ((Evaluation.evaluateWithin room x).run s)
      ((Evaluation.evaluateWithin room x').run s') := by
  induction room generalizing x x' s s' with
  | zero => exact abandon h
  | succ room ih =>
    have hsame := h.abandoned
    cases habandoned : s.abandoned with
    | true =>
      rw [run_evaluateWithin_of_abandoned habandoned,
        run_evaluateWithin_of_abandoned (hsame.trans habandoned)]
      exact here h L.nil
    | false =>
      rw [run_evaluateWithin_succ habandoned, run_evaluateWithin_succ (hsame.trans habandoned)]
      exact follow (fun h hx => ih h hx) (Plan.alike_of h.memory hx) h

theorem evaluate {x x' : Value} (h : Session.Alike L s s') (hx : L.Like x x') :
    Follows L s s' ((Evaluation.evaluate x).run s) ((Evaluation.evaluate x').run s') := by
  have hrested : Session.Alike L s.rested s'.rested := { h with abandoned := rfl }
  have hwithin := evaluateWithin s.settings.maxDepth hrested hx
  rw [run_evaluate, run_evaluate, h.settings]
  exact ⟨hwithin.value, { hwithin.session with abandoned := rfl }, hwithin.evolves,
    hwithin.evolves'⟩

end Follows

/-! ## Whatever has been reported before -/

theorem run_evaluate_unheard (s : Session) (expression : Value) :
    (evaluate expression).run s =
      (((evaluate expression).run s.unheard).1,
        ((evaluate expression).run s.unheard).2.heard s.reported) := by
  have hheard := Indifferent.evaluate expression s.reported s.unheard
  rwa [s.heard_unheard] at hheard

theorem reportsOf_eq (s : Session) (expression : Value) :
    s.reportsOf expression = ((evaluate expression).run s.unheard).2.reported := by
  rw [Session.reportsOf, run_evaluate_unheard]
  exact List.drop_left

/-- Evaluation cannot tell memories apart that agree. -/
theorem Likeness.evaluate_alike (h : L.Agree s.memory s'.memory) (htruth : L.Like s.truth s'.truth)
    (hsettings : s'.settings = s.settings) {x x' : Value} (hx : L.Like x x') :
    let ended := (evaluate x).run s
    let ended' := (evaluate x').run s'
    L.Like ended.1 ended'.1 ∧ s'.reportsOf x' = s.reportsOf x ∧
      L.Agree ended.2.memory ended'.2.memory ∧ s.memory.Evolves ended.2.memory ∧
      s'.memory.Evolves ended'.2.memory := by
  intro ended ended'
  -- What has been reported, and whether a form is being evaluated, need not be the same.
  have halike : Session.Alike L s.unheard.rested s'.unheard.rested :=
    ⟨h, htruth, hsettings, rfl, rfl⟩
  have hfollows := Follows.evaluate halike hx
  have hended : ended = _ := run_evaluate_unheard s x
  have hended' : ended' = _ := run_evaluate_unheard s' x'
  rw [hended, hended', reportsOf_eq, reportsOf_eq]
  exact ⟨hfollows.value, hfollows.session.reported, hfollows.session.memory, hfollows.evolves,
    hfollows.evolves'⟩

end DynLisp
