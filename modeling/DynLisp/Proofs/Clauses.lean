/-
  Proofs/Clauses.lean --- `cond` in terms of `if`, and one clause in terms of `and`.

  WHAT THIS FILE IS FOR.  The clauses of a `cond` are tried one after another, all of
  them at the depth below the form.  Written as nested `if`s, each clause lies one deeper
  than the one before it.  So the `cond` goes no deeper than the nested `if`s do, and what
  they come to it comes to as well (`attempt_ofClauses_of_nested`).  With one clause there
  is no such difference, and the two forms and `and` do the same in any depth, also where
  the limit cuts them short.
-/
import DynLisp.Proofs.CallStack
import DynLisp.Proofs.Limits

set_option autoImplicit false

namespace DynLisp

open Evaluation

/-! ## Forms -/

namespace Store

/-- The value is a list of a name and some arguments. -/
def IsForm (s : Store) (name : String) (arguments : List Value) (v : Value) : Prop :=
  ∃ label : Label, label.text = name ∧ s.elements v = .symbol label :: arguments

/-- The items are `(t r)` for some tests and results, one by one. -/
def AreClauses (s : Store) (clauses : List (Value × Value)) (items : List Value) : Prop :=
  List.Forall₂ (fun item clause => s.elements item = [clause.1, clause.2]) items clauses

/-- The value is `(cond (t r) ...)` for some tests and results. -/
def IsCond (s : Store) (clauses : List (Value × Value)) (v : Value) : Prop :=
  ∃ items, s.IsForm "cond" items v ∧ s.AreClauses clauses items

/-- The value is `(if t r)` or `(if t r (if ...))` for some tests and results. -/
inductive IsNestedIf (s : Store) : List (Value × Value) → Value → Prop where
  | last {test result v : Value} (hform : s.IsForm "if" [test, result] v) :
    IsNestedIf s [(test, result)] v
  | more {test result other v : Value} {clauses : List (Value × Value)}
      (hform : s.IsForm "if" [test, result, other] v) (hother : IsNestedIf s clauses other) :
    IsNestedIf s ((test, result) :: clauses) v

theorem elements_of_atom (s : Store) {v : Value} (h : ∀ a, v ≠ .pair a) : s.elements v = [] :=
  (Chain.stop h).elements_eq

end Store

namespace Memory

variable {m n : Memory} {v : Value}

theorem Valid.first_eq (h : m.Valid) (hv : m.Visible v) :
    m.store.first v = (m.store.elements v).headD .nil := by
  cases v with
  | pair a =>
    rw [h.elements_pair hv]
    rfl
  | nil | number | string | symbol => simp [Store.first, Store.elements_of_atom]

theorem Valid.elements_rest (h : m.Valid) (hv : m.Visible v) :
    m.store.elements (m.store.rest v) = (m.store.elements v).tail := by
  cases v with
  | pair a =>
    rw [h.elements_pair hv]
    rfl
  | nil | number | string | symbol => simp [Store.rest, Store.elements_of_atom]

theorem Valid.second_eq (h : m.Valid) (hv : m.Visible v) :
    m.store.second v = (m.store.elements v).tail.headD .nil := by
  rw [Store.second, h.first_eq (h.rest_visible hv), h.elements_rest hv]

theorem Valid.third_eq (h : m.Valid) (hv : m.Visible v) :
    m.store.third v = (m.store.elements v).tail.tail.headD .nil := by
  have hrest := h.rest_visible hv
  rw [Store.third, h.first_eq (h.rest_visible hrest), h.elements_rest hrest, h.elements_rest hv]

variable {name : String} {arguments : List Value}

theorem Spares.isForm (hm : m.Spares n) (h : m.Valid) (hv : m.Visible v)
    (hform : m.store.IsForm name arguments v) : n.store.IsForm name arguments v := by
  obtain ⟨label, hname, helements⟩ := hform
  exact ⟨label, hname, by rw [hm.elements_eq h hv, helements]⟩

/-- What a list of a name and arguments is made of can be seen. -/
theorem Valid.arguments_visible (h : m.Valid) (hv : m.Visible v)
    (hform : m.store.IsForm name arguments v) : ∀ argument ∈ arguments, m.Visible argument := by
  obtain ⟨label, -, helements⟩ := hform
  have hvisible := h.element_visible hv
  rw [helements] at hvisible
  exact fun argument hargument => hvisible argument (List.mem_cons_of_mem _ hargument)

/-- A list that starts with the name of a special form is that form, whatever the name is bound
to. -/
theorem Valid.plan_of_form (h : m.Valid) (hv : m.Visible v)
    (hform : m.store.IsForm name arguments v) (form : SpecialForm)
    (hfind : Operator.find? name = some (.special form)) :
    ∃ list, m.Visible list ∧ m.store.elements list = arguments ∧
      Plan.of m v = Plan.ofSpecial m form v list := by
  obtain ⟨label, rfl, helements⟩ := hform
  refine ⟨m.store.rest v, h.rest_visible hv, by rw [h.elements_rest hv, helements]; rfl, ?_⟩
  cases v with
  | pair a =>
    have hhead : m.store.first (.pair a) = .symbol label := by
      rw [h.first_eq hv, helements]
      rfl
    simp only [Plan.of, Plan.ofCall, hhead, hfind, Plan.ofOperator]
  | nil | number | string | symbol => simp [Store.elements_of_atom] at helements

end Memory

/-! ## Nested tests -/

namespace Plan

theorem attempt_last_eq_ok_iff {stopping : Value → Session → Ending} {x v : Value}
    {s s' : Session} :
    (last x).attempt stopping s = (.ok v, s') ↔ stopping x s = (.ok v, s') := by
  unfold last attempt
  rcases stopping x s with ⟨_ | _, s₁⟩
  case ok w => exact Iff.rfl
  case error waiting => simp

end Plan

section Tests

variable {label : Label} {m : Memory} {room room' : Nat} {s s' : Session} {v test result : Value}

/-- An evaluation that comes to a value spares what can be seen. -/
theorem spares_of_evaluateOrStop (htruth : s.truth = .symbol label) (h : s.memory.Valid)
    {expression : Value} (hx : s.memory.Visible expression)
    (hend : evaluateOrStop room expression s = (.ok v, s')) :
    s'.truth = .symbol label ∧ s'.memory.Valid ∧ s.memory.Spares s'.memory := by
  have hmeets := evaluateOrStop_sound room expression s htruth h hx
  have hkept := evaluateOrStop_continues room expression s
  rw [hend] at hmeets hkept
  exact ⟨hkept.truth.trans htruth, hmeets.orderly, hmeets.evolves.toSpares⟩

/-- An `if` that comes to a value has come to that of one of its branches. -/
theorem branch_of_evaluateOrStop_if (htruth : s.truth = .symbol label) (h : s.memory.Valid)
    {expression : Value} {others : List Value} (hx : s.memory.Visible expression)
    (hform : s.memory.store.IsForm "if" (test :: result :: others) expression)
    (hend : evaluateOrStop room expression s = (.ok v, s')) :
    ∃ fewer a middle, room = fewer + 1 ∧ evaluateOrStop fewer test s = (.ok a, middle) ∧
      evaluateOrStop fewer (if a.isTruthy then result else others.headD .nil) middle =
        (.ok v, s') := by
  obtain ⟨list, hlist, helements, hplan⟩ := h.plan_of_form hx hform .ifElse rfl
  have htest := h.arguments_visible hx hform test (by simp)
  cases room with
  | zero => simp [evaluateOrStop] at hend
  | succ fewer =>
    have hfirst : s.memory.store.first list = test := by
      rw [h.first_eq hlist, helements]
      rfl
    simp only [evaluateOrStop, hplan, Plan.ofSpecial, Plan.attempt, hfirst] at hend
    rcases hpart : evaluateOrStop fewer test s with ⟨_ | a, middle⟩
    case error waiting => simp [hpart] at hend
    case ok =>
      obtain ⟨-, hvalid, hspares⟩ := spares_of_evaluateOrStop htruth h htest hpart
      have hlist' := hspares.visible hlist
      have helements' := (hspares.elements_eq h hlist).trans helements
      simp only [hpart, hvalid.second_eq hlist', hvalid.third_eq hlist', helements'] at hend
      refine ⟨fewer, a, middle, rfl, hpart, ?_⟩
      split at hend
      · rename_i htrue
        rw [if_pos htrue]
        exact Plan.attempt_last_eq_ok_iff.mp hend
      · rename_i hfalse
        rw [if_neg hfalse]
        exact Plan.attempt_last_eq_ok_iff.mp hend

/-- A clause whose test comes to a value is decided by it. -/
theorem attempt_ofClauses_cons (htruth : s.truth = .symbol label) (h : s.memory.Valid)
    {clause : Value} (hclause : s.memory.Visible clause)
    (helements : s.memory.store.elements clause = [test, result]) {a : Value} {middle : Session}
    (hpart : evaluateOrStop room test s = (.ok a, middle)) (more : List Value) :
    (Plan.ofClauses (clause :: more) s.memory).attempt (evaluateOrStop room) s =
      (if a.isTruthy then Plan.last result else Plan.ofClauses more middle.memory).attempt
        (evaluateOrStop room) middle := by
  have hfirst : s.memory.store.first clause = test := by
    rw [h.first_eq hclause, helements]
    rfl
  have htest : s.memory.Visible test := hfirst ▸ h.first_visible hclause
  obtain ⟨-, hvalid, hspares⟩ := spares_of_evaluateOrStop htruth h htest hpart
  have hsecond : middle.memory.store.second clause = result := by
    rw [hvalid.second_eq (hspares.visible hclause), hspares.elements_eq h hclause, helements]
    rfl
  simp only [Plan.ofClauses, Plan.attempt, hfirst, hpart, hsecond]

/-- What fits in some room comes to the same in more. -/
theorem evaluateOrStop_of_le (hle : room ≤ room') {expression : Value}
    (hend : evaluateOrStop room expression s = (.ok v, s')) :
    evaluateOrStop room' expression s = (.ok v, s') := by
  have hextends := evaluateOrStop_extends hle expression s
  rw [hend] at hextends
  exact hextends

/-- A clause comes to what an `if` of its test and result does, if what comes after it does so where
the test is false.  The memory `m` is that in which the forms were found. -/
theorem attempt_clause_of_if (h : m.Valid) {choice clause : Value} {others more : List Value}
    (hchoice : m.Visible choice)
    (hform : m.store.IsForm "if" (test :: result :: others) choice) (hclause : m.Visible clause)
    (helements : m.store.elements clause = [test, result]) (hle : room ≤ room' + 1)
    (htruth : s.truth = .symbol label) (hs : s.memory.Valid) (hm : m.Spares s.memory)
    (hmore : ∀ fewer ≤ room', ∀ middle : Session, middle.truth = .symbol label →
      middle.memory.Valid → m.Spares middle.memory →
      evaluateOrStop fewer (others.headD .nil) middle = (.ok v, s') →
      (Plan.ofClauses more middle.memory).attempt (evaluateOrStop room') middle = (.ok v, s'))
    (hend : evaluateOrStop room choice s = (.ok v, s')) :
    (Plan.ofClauses (clause :: more) s.memory).attempt (evaluateOrStop room') s =
      (.ok v, s') := by
  obtain ⟨fewer, a, middle, rfl, htest, hbranch⟩ :=
    branch_of_evaluateOrStop_if htruth hs (hm.visible hchoice) (hm.isForm h hchoice hform) hend
  have hfewer : fewer ≤ room' := Nat.le_of_succ_le_succ hle
  have helements' := (hm.elements_eq h hclause).trans helements
  rw [attempt_ofClauses_cons htruth hs (hm.visible hclause) helements'
    (evaluateOrStop_of_le hfewer htest)]
  split at hbranch
  · rename_i htrue
    rw [if_pos htrue]
    exact Plan.attempt_last_eq_ok_iff.mpr (evaluateOrStop_of_le hfewer hbranch)
  · rename_i hfalse
    rw [if_neg hfalse]
    have hvisible := hm.visible (h.arguments_visible hchoice hform test (by simp))
    obtain ⟨htruth', hs', hspares⟩ := spares_of_evaluateOrStop htruth hs hvisible htest
    exact hmore fewer hfewer middle htruth' hs' (hm.trans hspares) hbranch

/-- What nested `if`s come to, the clauses come to with one less of room. -/
theorem attempt_ofClauses_of_nested (h : m.Valid) {clauses : List (Value × Value)} {nested : Value}
    (hnested : m.Visible nested) (hif : m.store.IsNestedIf clauses nested) {items : List Value}
    (hitems : ∀ item ∈ items, m.Visible item) (hclauses : m.store.AreClauses clauses items)
    (hle : room ≤ room' + 1) (htruth : s.truth = .symbol label) (hs : s.memory.Valid)
    (hm : m.Spares s.memory) (hend : evaluateOrStop room nested s = (.ok v, s')) :
    (Plan.ofClauses items s.memory).attempt (evaluateOrStop room') s = (.ok v, s') := by
  induction hif generalizing items room s with
  | last hform =>
    cases hclauses with
    | cons hclause hnone =>
      cases hnone
      refine attempt_clause_of_if h hnested hform (hitems _ (List.mem_singleton_self _)) hclause hle
        htruth hs hm ?_ hend
      intro fewer _ middle _ _ _ hother
      -- The branch that is missing is the empty list, which stands for itself.
      exact evaluateOrStop_of_le (Nat.le_succ fewer) hother
  | @more _ _ other _ _ hform _ ih =>
    cases hclauses with
    | cons hclause hmore =>
      obtain ⟨hvisible, hitems⟩ := List.forall_mem_cons.mp hitems
      refine attempt_clause_of_if h hnested hform hvisible hclause hle htruth hs hm ?_ hend
      intro fewer hfewer middle htruth' hs' hm' hbranch
      have hothervisible := h.arguments_visible hnested hform other (by simp)
      exact ih hothervisible hitems hmore (Nat.le_succ_of_le hfewer) htruth' hs' hm' hbranch

end Tests

/-! ## One test -/

/-- The value of a result, if a test is true. -/
def Plan.guarded (test result : Value) : Plan :=
  part .dropping test fun v _ => if v.isTruthy then last result else value .nil

/-- The value is `(and t r)`, `(if t r)` or `(cond (t r))`. -/
def Store.IsGuarded (s : Store) (test result v : Value) : Prop :=
  s.IsForm "and" [test, result] v ∨ s.IsForm "if" [test, result] v ∨ s.IsCond [(test, result)] v

/-- Plans with the same part come to the same if they do where the part comes to a value. -/
theorem Plan.attempt_part_congr {stopping : Value → Session → Ending} {s : Session}
    {pending : Pending} {expression : Value} {next next' : Value → Memory → Plan}
    (h : ∀ a middle, stopping expression s = (.ok a, middle) →
      (next a middle.memory).attempt stopping middle =
        (next' a middle.memory).attempt stopping middle) :
    (part pending expression next).attempt stopping s =
      (part pending expression next').attempt stopping s := by
  unfold attempt
  rcases hpart : stopping expression s with ⟨_ | a, middle⟩
  case error waiting => rfl
  case ok => exact h a middle hpart

section Guarded

variable {label : Label} {room : Nat} {s : Session} {test result v : Value}

/-- After the test the arguments of a form are what they were. -/
theorem elements_of_evaluateOrStop {list : Value} {items : List Value}
    (htruth : s.truth = .symbol label) (h : s.memory.Valid) (hlist : s.memory.Visible list)
    (helements : s.memory.store.elements list = test :: items) {a : Value} {middle : Session}
    (hpart : evaluateOrStop room (s.memory.store.first list) s = (.ok a, middle)) :
    middle.memory.store.second list = items.headD .nil ∧
      middle.memory.store.third list = items.tail.headD .nil := by
  obtain ⟨-, hvalid, hspares⟩ := spares_of_evaluateOrStop htruth h (h.first_visible hlist) hpart
  have hlist' := hspares.visible hlist
  rw [hvalid.second_eq hlist', hvalid.third_eq hlist', hspares.elements_eq h hlist, helements]
  exact ⟨rfl, rfl⟩

theorem attempt_last_nil {expression a : Value} {middle : Session}
    (hpart : evaluateOrStop room expression s = (.ok a, middle)) :
    (Plan.last .nil).attempt (evaluateOrStop room) middle = (.ok .nil, middle) := by
  cases room with
  | zero => simp [evaluateOrStop] at hpart
  | succ room => rfl

/-- All three forms do the same in any depth. -/
theorem evaluateOrStop_guarded (htruth : s.truth = .symbol label) (h : s.memory.Valid)
    (hv : s.memory.Visible v) (hguarded : s.memory.store.IsGuarded test result v) :
    evaluateOrStop (room + 1) v s =
      (Plan.guarded test result).attempt (evaluateOrStop room) s := by
  have hfirst : ∀ {list items}, s.memory.Visible list →
      s.memory.store.elements list = test :: items → s.memory.store.first list = test := by
    intro list items hlist helements
    rw [h.first_eq hlist, helements]
    rfl
  rcases hguarded with hand | hif | ⟨items, hcond, hclauses⟩
  · obtain ⟨list, hlist, helements, hplan⟩ := h.plan_of_form hv hand .and rfl
    rw [evaluateOrStop, hplan, Plan.guarded, ← hfirst hlist helements]
    refine Plan.attempt_part_congr fun a middle hpart => ?_
    rw [(elements_of_evaluateOrStop htruth h hlist helements hpart).1]
    rfl
  · obtain ⟨list, hlist, helements, hplan⟩ := h.plan_of_form hv hif .ifElse rfl
    rw [evaluateOrStop, hplan, Plan.guarded, ← hfirst hlist helements]
    refine Plan.attempt_part_congr fun a middle hpart => ?_
    obtain ⟨hsecond, hthird⟩ := elements_of_evaluateOrStop htruth h hlist helements hpart
    rw [hsecond, hthird]
    split
    · rfl
    · exact attempt_last_nil hpart
  · obtain ⟨list, hlist, helements, hplan⟩ := h.plan_of_form hv hcond .cond rfl
    cases hclauses with
    | @cons clause _ _ _ hclause hnone =>
      cases hnone
      have hvisible := h.arguments_visible hv hcond clause (List.mem_singleton_self clause)
      rw [evaluateOrStop, hplan, Plan.ofSpecial, helements, Plan.guarded,
        ← hfirst hvisible hclause]
      refine Plan.attempt_part_congr fun a middle hpart => ?_
      rw [(elements_of_evaluateOrStop htruth h hvisible hclause hpart).1]
      rfl

end Guarded

namespace Session.Valid

variable {s : Session} (h : s.Valid)
include h

/-- What nested `if`s come to without going too deep, a `cond` of the same clauses comes to. -/
theorem run_evaluate_cond {clauses : List (Value × Value)} {whole nested : Value}
    (hwhole : s.memory.Visible whole) (hnested : s.memory.Visible nested)
    (hcond : s.memory.store.IsCond clauses whole) (hif : s.memory.store.IsNestedIf clauses nested)
    (hfits : ¬ s.Exceeds nested) : (evaluate whole).run s = (evaluate nested).run s := by
  rcases hend : evaluateOrStop s.settings.maxDepth nested s with ⟨waiting | v, s'⟩
  case error => exact absurd (h.exceeds_iff.mpr ⟨waiting, s', hend⟩) hfits
  case ok =>
    obtain ⟨items, hform, hclauses⟩ := hcond
    obtain ⟨list, -, helements, hplan⟩ := h.memory.plan_of_form hwhole hform .cond rfl
    cases hdepth : s.settings.maxDepth with
    | zero => simp [hdepth, evaluateOrStop] at hend
    | succ room =>
      have hitems := h.memory.arguments_visible hwhole hform
      rw [hdepth] at hend
      have hwholeend : evaluateOrStop s.settings.maxDepth whole s = (.ok v, s') := by
        rw [hdepth, evaluateOrStop, hplan, Plan.ofSpecial, helements]
        exact attempt_ofClauses_of_nested h.memory hnested hif hitems hclauses (Nat.le_refl _)
          h.truth h.memory (.refl _) hend
      rw [← hdepth] at hend
      rw [h.run_evaluate_of_ok hend, h.run_evaluate_of_ok hwholeend]

theorem run_evaluate_guarded {test result x y : Value} (hx : s.memory.Visible x)
    (hy : s.memory.Visible y) (hguarded : s.memory.store.IsGuarded test result x)
    (hguarded' : s.memory.store.IsGuarded test result y) :
    (evaluate x).run s = (evaluate y).run s := by
  have hends : ∀ room, evaluateOrStop room x s = evaluateOrStop room y s := by
    intro room
    cases room with
    | zero => rfl
    | succ room =>
      rw [evaluateOrStop_guarded h.truth h.memory hx hguarded,
        evaluateOrStop_guarded h.truth h.memory hy hguarded']
  rw [h.run_evaluate_eq_resume, h.run_evaluate_eq_resume, hends]

end Session.Valid

end DynLisp
