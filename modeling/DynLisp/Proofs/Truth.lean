/-
  Proofs/Truth.lean --- there is one symbol for true.

  WHAT THIS FILE IS FOR.  Some expressions ask a question: a comparison does, and so does a
  form that ends in one whichever way it goes (`Datum.IsBoolean`).  Such an expression comes
  to the empty list or to the session's own symbol for true.  It makes no difference what
  the name of that symbol is bound to, since true is never looked up.

  THE STEP AND THE RUN.  The plan of a boolean expression `Decides`: the only values that it
  hands on are those of boolean parts (`decides_of`).  To follow such a plan gives an answer
  if its boolean parts do (`attempt_decides`), and so, by induction on the room that is
  left, does evaluation (`evaluateOrStop_decides`).  Where the limit is hit, every form
  comes to an answer, boolean or not.
-/
import DynLisp.Proofs.Clauses
import DynLisp.Proofs.Heights
import Mathlib.Logic.Relation

set_option autoImplicit false

namespace DynLisp

open Evaluation

/-! ## Boolean expressions -/

namespace Datum

/-- The first half of a pair, and the empty list for anything else. -/
def first : Datum → Datum
  | cons first _ => first
  | _ => nil

/-- The second half of a pair, and the empty list for anything else. -/
def rest : Datum → Datum
  | cons _ rest => rest
  | _ => nil

/-- The second element of a list. -/
def second (datum : Datum) : Datum := datum.rest.first

/-- The third element of a list. -/
def third (datum : Datum) : Datum := datum.rest.rest.first

/-- The operators that ask a question of the values of their arguments. -/
def testNames : List String := ["<", ">", "<=", ">=", "=", "not"]

/-- The expression can only come to true or to the empty list.  Which arguments there are, and
whether there are more of them than are looked at, is left open. -/
inductive IsBoolean : Datum → Prop where
  | nil : IsBoolean nil
  | test {name : String} {arguments : Datum} (hname : name ∈ testNames) :
    IsBoolean (cons (symbol name) arguments)
  | and {arguments : Datum} (hlast : IsBoolean arguments.second) :
    IsBoolean (cons (symbol "and") arguments)
  | or {arguments : Datum} (hlast : IsBoolean arguments.second) :
    IsBoolean (cons (symbol "or") arguments)
  | ifElse {arguments : Datum} (hthen : IsBoolean arguments.second)
      (helse : IsBoolean arguments.third) : IsBoolean (cons (symbol "if") arguments)
  | cond {clauses : Datum} (hclauses : ∀ clause ∈ clauses.elements, IsBoolean clause.second) :
    IsBoolean (cons (symbol "cond") clauses)
  | application {items arguments : Datum} (hbody : IsBoolean items.second) :
    IsBoolean (cons (cons (symbol Store.lambdaName) items) arguments)

end Datum

theorem Operator.find?_of_mem_testNames {name : String} (h : name ∈ Datum.testNames) :
    find? name = some (.special .not) ∨ (∃ relation, find? name = some (.comparison relation)) ∨
      find? name = some .equality := by
  simp only [Datum.testNames, List.mem_cons, List.not_mem_nil, or_false] at h
  rcases h with rfl | rfl | rfl | rfl | rfl | rfl
  · exact .inr (.inl ⟨.less, rfl⟩)
  · exact .inr (.inl ⟨.greater, rfl⟩)
  · exact .inr (.inl ⟨.lessOrEqual, rfl⟩)
  · exact .inr (.inl ⟨.greaterOrEqual, rfl⟩)
  · exact .inr (.inr rfl)
  · exact .inl rfl

/-! ## What values show -/

namespace Memory

variable {m n : Memory} {v : Value}

section Content

variable (h : m.Valid) (hv : m.Visible v)
include h hv

theorem Valid.content_first : m.store.content (m.store.first v) = (m.store.content v).first := by
  have hshows := h.shows hv
  generalize m.store.content v = datum at hshows ⊢
  cases hshows with
  | pair _ hfirst _ => exact hfirst.content_eq
  | nil | number | string | symbol => exact m.content_nil

theorem Valid.content_rest : m.store.content (m.store.rest v) = (m.store.content v).rest := by
  have hshows := h.shows hv
  generalize m.store.content v = datum at hshows ⊢
  cases hshows with
  | pair _ _ hrest => exact hrest.content_eq
  | nil | number | string | symbol => exact m.content_nil

theorem Valid.content_elements :
    (m.store.elements v).map m.store.content = (m.store.content v).elements := by
  have hgrounded := h.grounded v hv
  induction hgrounded with
  | @atom v hatom =>
    have hshows := h.shows hv
    rw [Store.elements_of_atom _ hatom]
    generalize m.store.content v = datum at hshows ⊢
    cases hshows with
    | pair => exact absurd rfl (hatom _)
    | nil | number | string | symbol => rfl
  | @pair a _ _ _ _ ihrest =>
    rw [h.elements_pair hv, h.content_pair hv, List.map_cons, ihrest (h.cell_visible a hv).2]
    rfl

theorem Valid.symbol_of_content {name : String} (hcontent : m.store.content v = .symbol name) :
    ∃ label : Label, label.text = name ∧ v = .symbol label := by
  have hshows := h.shows hv
  rw [hcontent] at hshows
  cases hshows with
  | symbol label => exact ⟨label, rfl, rfl⟩

theorem Valid.isLambda_of_content {items : Datum}
    (hcontent : m.store.content v = .cons (.symbol Store.lambdaName) items) :
    ∃ a, v = .pair a ∧ m.store.isLambda (.pair a) = true := by
  have hshows := h.shows hv
  rw [hcontent] at hshows
  cases hshows with
  | @pair a _ _ _ hfirst _ =>
    obtain ⟨label, hname, hhead⟩ :=
      h.symbol_of_content (h.cell_visible a hv).1 hfirst.content_eq
    refine ⟨a, rfl, ?_⟩
    show Value.isSymbolNamed (m.store.cell a).first Store.lambdaName = true
    simp [hhead, Value.isSymbolNamed, Value.symbolName?, hname]

end Content

/-- The value can be seen, and something holds of the datum that it shows. -/
structure Presents (m : Memory) (P : Datum → Prop) (v : Value) : Prop where
  visible : m.Visible v
  holds : P (m.store.content v)

namespace Presents

variable {P : Datum → Prop} (h : m.Valid)
include h

theorem kept (hv : m.Presents P v) (hm : m.Spares n) : n.Presents P v := by
  refine ⟨hm.visible hv.visible, ?_⟩
  rw [hm.content_eq h hv.visible]
  exact hv.holds

theorem second (hv : m.Presents (fun datum => P datum.second) v) :
    m.Presents P (m.store.second v) := by
  have hrest := h.rest_visible hv.visible
  refine ⟨h.first_visible hrest, ?_⟩
  rw [Store.second, h.content_first hrest, h.content_rest hv.visible]
  exact hv.holds

theorem third (hv : m.Presents (fun datum => P datum.third) v) :
    m.Presents P (m.store.third v) := by
  have hrest := h.rest_visible hv.visible
  have hrest' := h.rest_visible hrest
  refine ⟨h.first_visible hrest', ?_⟩
  rw [Store.third, h.content_first hrest', h.content_rest hrest, h.content_rest hv.visible]
  exact hv.holds

theorem elements (hv : m.Presents (fun datum => ∀ item ∈ datum.elements, P item) v) :
    ∀ item ∈ m.store.elements v, m.Presents P item := by
  intro item hitem
  refine ⟨h.element_visible hv.visible item hitem, hv.holds _ ?_⟩
  rw [← h.content_elements hv.visible]
  exact List.mem_map_of_mem hitem

end Presents

end Memory

/-! ## The step -/

/-- The value is true or the empty list. -/
def Value.IsAnswer (v truth : Value) : Prop := v = .nil ∨ v = truth

namespace Plan

open Memory

variable {truth : Value} {m : Memory}

/-- The plan comes to true or to the empty list, if its boolean parts do. -/
def Decides (truth : Value) : Plan → Memory → Prop
  | .value v, _ => v.IsAnswer truth
  | .truth _, _ => True
  | .fault _ _, _ => True
  | .bind _ _, _ => False
  | .enter _ _ body, m => m.Presents Datum.IsBoolean body
  | .part _ expression next, m =>
    ∀ n v, m.Yields n v → (m.Presents Datum.IsBoolean expression → v.IsAnswer truth) →
      (next v n).Decides truth n

theorem decides_last {expression : Value} (h : m.Presents Datum.IsBoolean expression) :
    (last expression).Decides truth m := fun _ _ _ hv => hv h

theorem decides_operands {first : Pending} {second : Value → Pending} {arguments : Value}
    {finish : Value → Value → Plan} (hfinish : ∀ a b n, (finish a b).Decides truth n) :
    (operands first second m arguments finish).Decides truth m :=
  fun _ a _ _ n b _ _ => hfinish a b n

theorem decides_ofClauses {clauses : List Value} (h : m.Valid)
    (hclauses : ∀ clause ∈ clauses, m.Presents (fun datum => datum.second.IsBoolean) clause) :
    (ofClauses clauses m).Decides truth m := by
  induction clauses generalizing m with
  | nil => exact .inl rfl
  | cons clause more ih =>
    obtain ⟨hclause, hmore⟩ := List.forall_mem_cons.mp hclauses
    intro n v hn _
    dsimp only
    split
    · exact decides_last ((hclause.kept h hn.evolves.toSpares).second hn.valid)
    · exact ih hn.valid fun other hother => (hmore other hother).kept h hn.evolves.toSpares

theorem decides_ofArguments {parameters body : Value} {before arguments : List Value}
    (h : m.Valid) (hbody : m.Presents Datum.IsBoolean body) :
    (ofArguments parameters body before arguments).Decides truth m := by
  induction arguments generalizing before m with
  | nil => exact hbody
  | cons argument more ih => exact fun n v hn _ => ih hn.valid (hbody.kept h hn.evolves.toSpares)

/-- An operator that asks a question gives an answer, or reports a fault. -/
theorem decides_ofOperator_of_test {name : String} {operator : Operator} {whole arguments : Value}
    (hoperator : operator = .special .not ∨ (∃ relation, operator = .comparison relation) ∨
      operator = .equality) :
    (ofOperator m name operator whole arguments).Decides truth m := by
  rcases hoperator with rfl | ⟨relation, rfl⟩ | rfl
  · exact fun _ _ _ _ => trivial
  · refine decides_operands fun a b n => ?_
    cases relation.onValues a b <;> trivial
  · exact decides_operands fun _ _ _ => trivial

/-- A list that starts with a built-in name is a call of that operator, whatever the name is bound
to. -/
theorem of_operator (h : m.Valid) {a : Nat} (ha : m.Visible (.pair a)) {name : String}
    (hhead : m.store.content (m.store.cell a).first = .symbol name) {operator : Operator}
    (hfind : Operator.find? name = some operator) :
    Plan.of m (.pair a) = ofOperator m name operator (.pair a) (m.store.cell a).rest := by
  obtain ⟨label, rfl, hfirst⟩ := h.symbol_of_content (h.cell_visible a ha).1 hhead
  have hhead : m.store.first (.pair a) = .symbol label := hfirst
  simp only [Plan.of, ofCall, hhead, hfind]
  rfl

/-- A list that starts with a function written out is a call of that function. -/
theorem of_application (h : m.Valid) {a : Nat} (ha : m.Visible (.pair a)) {items : Datum}
    (hhead : m.store.content (m.store.cell a).first = .cons (.symbol Store.lambdaName) items) :
    Plan.of m (.pair a) = ofFunction m (m.store.cell a).first (m.store.cell a).rest := by
  obtain ⟨b, hfirst, hlambda⟩ := h.isLambda_of_content (h.cell_visible a ha).1 hhead
  have hhead : m.store.first (.pair a) = .pair b := hfirst
  simp only [Plan.of, ofCall, hhead, hlambda, hfirst, if_true]
  rfl

/-- The plan of a boolean expression decides. -/
theorem decides_of {expression : Value} (h : m.Valid)
    (hx : m.Presents Datum.IsBoolean expression) : (Plan.of m expression).Decides truth m := by
  obtain ⟨hvisible, hboolean⟩ := hx
  have hshows := h.shows hvisible
  generalize hcontent : m.store.content expression = datum at hboolean hshows
  cases hshows with
  | nil => exact .inl rfl
  | number | string | symbol => cases hboolean
  | @pair a first rest ha hfirst hrest =>
    have hhead := hfirst.content_eq
    have harguments : ∀ {P : Datum → Prop}, P rest → m.Presents P (m.store.cell a).rest :=
      fun hP => ⟨(h.cell_visible a hvisible).2, hrest.content_eq.symm ▸ hP⟩
    -- What the form needs of its arguments holds after one of them has been evaluated.
    have hlater : ∀ {P : Datum → Prop} {n v}, P rest → m.Yields n v →
        n.Presents P (m.store.cell a).rest :=
      fun hP hn => (harguments hP).kept h hn.evolves.toSpares
    cases hboolean with
    | @test name _ hname =>
      have htest := Operator.find?_of_mem_testNames hname
      obtain ⟨operator, hfind⟩ : ∃ operator, Operator.find? name = some operator := by
        rcases htest with hfind | ⟨relation, hfind⟩ | hfind <;> exact ⟨_, hfind⟩
      rw [of_operator h hvisible hhead hfind]
      simp only [hfind, Option.some.injEq] at htest
      exact decides_ofOperator_of_test htest
    | and hlast =>
      rw [of_operator h hvisible hhead rfl]
      intro n v hn _
      dsimp only
      split
      · exact decides_last ((hlater hlast hn).second hn.valid)
      · exact .inl rfl
    | or hlast =>
      rw [of_operator h hvisible hhead rfl]
      intro n v hn _
      dsimp only
      split
      · trivial
      · exact decides_last ((hlater hlast hn).second hn.valid)
    | ifElse hthen helse =>
      rw [of_operator h hvisible hhead rfl]
      intro n v hn _
      dsimp only
      split
      · exact decides_last ((hlater hthen hn).second hn.valid)
      · exact decides_last ((hlater helse hn).third hn.valid)
    | cond hclauses =>
      rw [of_operator h hvisible hhead rfl]
      exact decides_ofClauses h ((harguments hclauses).elements h)
    | @application items _ hbody =>
      rw [of_application h hvisible hhead]
      have hfunction : m.Presents (fun datum => datum.third.IsBoolean) (m.store.cell a).first :=
        ⟨(h.cell_visible a hvisible).1, hhead.symm ▸ hbody⟩
      exact decides_ofArguments h (hfunction.third h)

end Plan

/-! ## The run -/

/-- If an evaluation has come to a value, that is an answer. -/
def Ending.Answers (truth : Value) (ending : Ending) : Prop :=
  match ending.1 with
  | .ok v => v.IsAnswer truth
  | .error _ => True

section Run

variable {label : Label}

theorem Session.isAnswer_boolean {s : Session} {truth : Value} (hs : s.truth = truth) (b : Bool) :
    (s.boolean b).IsAnswer truth := by
  cases b with
  | false => exact .inl rfl
  | true => exact .inr hs

/-- To follow a plan that decides gives an answer if boolean parts do. -/
theorem Plan.attempt_decides {room : Nat}
    (hparts : ∀ (x : Value) (s : Session), s.truth = .symbol label → s.memory.Valid →
      s.memory.Presents Datum.IsBoolean x → (evaluateOrStop room x s).Answers (.symbol label))
    (plan : Plan) (s : Session) (htruth : s.truth = .symbol label) (h : s.memory.Valid)
    (hobeys : plan.Obeys (visibility label) s.memory)
    (hdecides : plan.Decides (.symbol label) s.memory) :
    (plan.attempt (evaluateOrStop room) s).Answers (.symbol label) := by
  induction plan generalizing s with
  | value v => exact hdecides
  | truth b => exact s.isAnswer_boolean htruth b
  | fault condition => exact .inl rfl
  | bind key v => exact absurd hdecides id
  | enter parameters arguments body =>
    obtain ⟨hparameters, harguments, -⟩ := hobeys
    have hentered := (visibility label).entered h hparameters harguments
    have hbody := hdecides.kept h (h.spares_entered parameters arguments)
    -- The end of the call leaves its value alone.
    exact hparts body { s with memory := s.memory.entered parameters arguments } htruth hentered
      hbody
  | part pending expression next ih =>
    obtain ⟨-, hexpression, hnext⟩ := hobeys
    have hanswers := hparts expression s htruth h
    have hsound := evaluateOrStop_sound room expression s htruth h hexpression
    have hkept := evaluateOrStop_continues room expression s
    unfold attempt
    split
    · rename_i v s' hend
      rw [hend] at hanswers hsound hkept
      exact ih v s'.memory s' (hkept.truth.trans htruth) hsound.orderly
        (hnext s'.memory v hsound) (hdecides s'.memory v hsound.seen hanswers)
    · trivial

/-- A boolean expression that comes to a value comes to an answer. -/
theorem evaluateOrStop_decides (room : Nat) (expression : Value) (s : Session)
    (htruth : s.truth = .symbol label) (h : s.memory.Valid)
    (hx : s.memory.Presents Datum.IsBoolean expression) :
    (evaluateOrStop room expression s).Answers (.symbol label) := by
  induction room generalizing expression s with
  | zero => trivial
  | succ room ih =>
    exact Plan.attempt_decides ih _ s htruth h
      (Plan.obeys_of (R := visibility label) h hx.visible) (Plan.decides_of h hx)

end Run

/-! ## Sessions -/

namespace Session

/-- The first session has become the second by a request. -/
def Asked (s s' : Session) : Prop :=
  ∃ request : Request, request.Allowed s.memory ∧ s' = s.after request

namespace Valid

variable {s s' : Session} (h : s.Valid)
include h

theorem of_asked (hasked : Relation.ReflTransGen Asked s s') : s'.Valid := by
  induction hasked with
  | refl => exact h
  | tail _ hrequest ih =>
    obtain ⟨request, hallowed, rfl⟩ := hrequest
    exact (ih.after hallowed).valid

theorem identical_truth (h' : s'.Valid) : s'.truth.identical s.truth = true := by
  rw [h.truth, h'.truth]
  rfl

theorem evaluate_isAnswer {expression : Value}
    (hx : s.memory.Presents Datum.IsBoolean expression) :
    ((evaluate expression).run s).1.IsAnswer s.truth := by
  have hanswers := evaluateOrStop_decides s.settings.maxDepth expression s h.truth h.memory hx
  rcases hend : evaluateOrStop s.settings.maxDepth expression s with ⟨waiting | v, s'⟩
  case ok =>
    rw [hend] at hanswers
    rw [h.run_evaluate_of_ok hend, h.truth]
    exact hanswers
  case error =>
    rw [h.run_evaluate_of_error hend]
    exact s.isAnswer_boolean rfl _

theorem evaluateForm_isAnswer {form : Form} {datum : Datum} (hform : form.outcome = .ok datum)
    (hboolean : datum.IsBoolean) : ((evaluateForm form).run s).1.IsAnswer s.truth := by
  have hload := h.memory.load datum
  have hcontent := (h.memory.shows_load datum).content_eq
  let loaded := ((inMemory (Memory.making (Store.load datum))).run
    { s with reported := s.reported ++ form.errors.map .unreadable }).2
  have hvalid : loaded.Valid := ⟨hload.valid, h.truth, h.resting⟩
  unfold evaluateForm
  rw [run_bind, h.run_reports, hform]
  exact hvalid.evaluate_isAnswer ⟨hload.visible, hcontent.symm ▸ hboolean⟩

theorem isAnswer_iff {v : Value} : v.IsAnswer s.truth ↔ v = .nil ∨ v.identical s.truth = true := by
  rw [Value.IsAnswer, h.truth]
  cases v <;> simp [Value.identical]

end Valid

/-- Whatever has been asked of a session, and whatever the name of true is bound to, a boolean
expression comes to the empty list or to the one symbol for true, whether it is given as a value or
has been read.  And whatever will be asked of it, that symbol stays the same. -/
theorem one_truth {s : Session} (h : s.Reachable) :
    (∀ x, s.memory.Visible x → (s.memory.store.content x).IsBoolean →
      ((evaluate x).run s).1 = .nil ∨ ((evaluate x).run s).1.identical s.truth = true) ∧
    (∀ (form : Form) datum, form.outcome = .ok datum → datum.IsBoolean →
      ((evaluateForm form).run s).1 = .nil ∨
        ((evaluateForm form).run s).1.identical s.truth = true) ∧
    ∀ s', Relation.ReflTransGen Asked s s' → s'.truth.identical s.truth = true := by
  refine ⟨fun x hx hboolean => ?_, fun form datum hform hboolean => ?_, fun s' hasked => ?_⟩
  · exact h.valid.isAnswer_iff.mp (h.valid.evaluate_isAnswer ⟨hx, hboolean⟩)
  · exact h.valid.isAnswer_iff.mp (h.valid.evaluateForm_isAnswer hform hboolean)
  · exact h.valid.identical_truth (h.valid.of_asked hasked)

/-- The name of true is bound to 5, and inside the call to 7, which the question is about. -/
theorem one_truth_rebound :
    let datum : Datum := .ofList [
      .ofList [.symbol "lambda", .ofList [.symbol "t"],
        .ofList [.symbol "or", .ofList [.symbol "not", .number (.integer 1)],
          .ofList [.symbol "=", .symbol "t", .number (.integer 7)]]],
      .number (.integer 7)]
    let s := (Session.start { maxDepth := 8 }).after
      (.read (Token.Stream.ofText false "(define t 5)").read) |>.after (.load datum)
    s.Reachable ∧ s.memory.lookupName "t" = some (.number (.integer 5)) ∧
      s.memory.store.content (.pair 18) = datum ∧ datum.IsBoolean ∧
      ((evaluate (.pair 18)).run s).1 ≠ .nil ∧
      ((evaluate (.pair 18)).run s).1.identical s.truth = true := by
  intro datum s
  have hreachable : s.Reachable := .after (.after (.start _) (.read _) trivial) (.load _) trivial
  have hcontent : s.memory.store.content (.pair 18) = datum := by decide +kernel
  have hboolean : datum.IsBoolean := .application (.or (.test (by simp [Datum.testNames])))
  have hne : ((evaluate (.pair 18)).run s).1 ≠ .nil := by decide +kernel
  have hanswer := (one_truth hreachable).1 (.pair 18) (by decide +kernel) (hcontent ▸ hboolean)
  exact ⟨hreachable, by decide +kernel, hcontent, hboolean, hne, hanswer.resolve_left hne⟩

end Session

end DynLisp
