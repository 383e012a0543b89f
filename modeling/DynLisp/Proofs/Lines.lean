/-
  Proofs/Lines.lean --- lines evaluated together, and one after the other.

  WHAT THIS FILE IS FOR.  A program may be given to a session in one text or line by
  line.  If no form runs over the end of a line, it makes no difference
  (`evaluateText_newline`): the same values, the same session, and the same conditions
  in the same order.  Only the places in the errors of texts count the tokens from the
  start of what has been given at once.

  THE FRAME.  Reports are written and not read, so a session whose reports are told with
  other places goes on like the session itself (`evaluateForm_further`).
-/
import DynLisp.Proofs.Joining

set_option autoImplicit false

namespace DynLisp

open Evaluation

/-! ## Other places -/

/-- The condition as it is if so many tokens more come before. -/
def Condition.further (n : Nat) : Condition → Condition
  | unreadable error => unreadable (error.further n)
  | condition => condition

theorem Condition.further_eq_self {condition : Condition} (h : condition.isUnreadable = false)
    (n : Nat) : condition.further n = condition := by
  cases condition with
  | unreadable error => simp [isUnreadable] at h
  | arithmetic | unknownFunction | invalidCall | depthExceeded => rfl

theorem Form.errors_behind (form : Form) (earlier : List Token) :
    (form.behind earlier).errors = form.errors.map (·.further earlier.length) := by
  obtain ⟨outcome, unterminated, after⟩ := form
  cases outcome <;> cases unterminated <;> rfl

namespace Session

/-- The session, if there had been so many tokens more before all that it has reported. -/
def further (n : Nat) (s : Session) : Session :=
  { s with reported := s.reported.map (·.further n) }

theorem further_eq_heard (n : Nat) (s : Session) :
    s.further n = s.unheard.heard (s.reported.map (·.further n)) := by
  obtain ⟨memory, truth, settings, reported, abandoned⟩ := s
  simp [further, heard, unheard]

/-- Only what is told of texts is told otherwise. -/
theorem further_heard {n : Nat} {s : Session} (h : ∀ c ∈ s.reported, c.isUnreadable = false)
    (earlier : List Condition) :
    (s.heard earlier).further n = s.heard (earlier.map (·.further n)) := by
  have hsame : s.reported.map (·.further n) = s.reported := by
    rw [List.map_congr_left fun condition hc => condition.further_eq_self (h condition hc) n,
      List.map_id']
  show ({ s with reported := (earlier ++ s.reported).map (·.further n) } : Session) = _
  rw [List.map_append, hsame]
  rfl

end Session

/-- The second of two computations does what the first one does, with other places in its reports.
-/
def Echoes {α : Type} (n : Nat) (act act' : Evaluation α) : Prop :=
  ∀ s : Session, act'.run (s.further n) = ((act.run s).1, (act.run s).2.further n)

namespace Echoes

variable {α β : Type} {n : Nat}

theorem pure (a : α) : Echoes n (Pure.pure a) (Pure.pure a) := fun _ => rfl

theorem bind {act act' : Evaluation α} {next next' : α → Evaluation β} (h : Echoes n act act')
    (hnext : ∀ a, Echoes n (next a) (next' a)) : Echoes n (act >>= next) (act' >>= next') := by
  intro s
  rw [run_bind, run_bind, h s, hnext]

theorem inMemory (act : StateM Memory α) :
    Echoes n (Evaluation.inMemory act) (Evaluation.inMemory act) := fun _ => rfl

theorem report (condition : Condition) :
    Echoes n (Evaluation.report condition) (Evaluation.report (condition.further n)) := by
  intro s
  obtain ⟨memory, truth, settings, reported, abandoned⟩ := s
  cases abandoned with
  | true => rfl
  | false =>
    have hmap : (reported ++ [condition]).map (·.further n) =
        reported.map (·.further n) ++ [condition.further n] := List.map_append
    exact congrArg (fun reported => ((), Session.mk memory truth settings reported false)) hmap.symm

theorem forM {γ : Type} {act : γ → Evaluation Unit} {f : γ → γ}
    (h : ∀ item, Echoes n (act item) (act (f item))) (items : List γ) :
    Echoes n (items.forM act) ((items.map f).forM act) := by
  rw [List.forM_eq_forM]
  induction items with
  | nil => exact pure ()
  | cons item more ih =>
    rw [List.map_cons, List.forM_cons, List.forM_cons]
    exact (h item).bind fun _ => ih

theorem mapM {act : α → Evaluation β} {f : α → α} (h : ∀ item, Echoes n (act item) (act (f item)))
    (items : List α) : Echoes n (items.mapM act) ((items.map f).mapM act) := by
  induction items with
  | nil => exact pure []
  | cons item more ih =>
    rw [List.map_cons, List.mapM_cons, List.mapM_cons]
    exact (h item).bind fun _ => ih.bind fun _ => pure _

/-- Evaluation reports nothing that has a place in a text. -/
theorem evaluate (expression : Value) :
    Echoes n (Evaluation.evaluate expression) (Evaluation.evaluate expression) := by
  intro s
  have hmeaning : ∀ c ∈ ((Evaluation.evaluate expression).run s.unheard).2.reported,
      c.isUnreadable = false := by
    obtain ⟨new, hnew, hmeaning⟩ := Session.Remarks.evaluate expression s.unheard
    rwa [hnew]
  have hrun := Indifferent.evaluate expression s.reported s.unheard
  rw [s.heard_unheard] at hrun
  rw [s.further_eq_heard, Indifferent.evaluate, hrun, Session.further_heard hmeaning]

/-- A form that has been read is reported on with other places. -/
theorem evaluateForm (form : Form) (earlier : List Token) :
    Echoes earlier.length (Evaluation.evaluateForm form)
      (Evaluation.evaluateForm (form.behind earlier)) := by
  unfold Evaluation.evaluateForm
  rw [form.errors_behind]
  refine (forM (fun error => report (.unreadable error)) form.errors).bind fun _ => ?_
  obtain ⟨outcome, unterminated, after⟩ := form
  cases outcome with
  | ok datum => exact (inMemory _).bind evaluate
  | error trouble => exact pure Value.nil

end Echoes

/-! ## Settings -/

theorem Ending.settings_resume (ending : Ending) :
    ending.resume.2.settings = ending.2.settings := by
  obtain ⟨result, s⟩ := ending
  cases result with
  | ok v => rfl
  | error waiting =>
    show ((unwindFrom .nil waiting).run s.abandon).2.settings = _
    rw [run_unwindFrom_session]
    rfl

namespace Session.Valid

variable {s : Session} (h : s.Valid)
include h

theorem settings_evaluate (expression : Value) :
    ((evaluate expression).run s).2.settings = s.settings := by
  rw [h.run_evaluate_eq_resume]
  exact (Ending.settings_resume _).trans
    (evaluateOrStop_continues s.settings.maxDepth expression s).settings

theorem settings_evaluateForm (form : Form) :
    ((evaluateForm form).run s).2.settings = s.settings := by
  unfold evaluateForm
  rw [run_bind, h.run_reports]
  cases form.outcome with
  | error trouble => rfl
  | ok datum =>
    have hload := h.memory.load datum
    have hloaded : Valid ((inMemory (Memory.making (Store.load datum))).run
        { s with reported := s.reported ++ form.errors.map .unreadable }).2 :=
      ⟨hload.valid, h.truth, h.resting⟩
    exact hloaded.settings_evaluate _

/-- A session reads all texts with the settings that it was started with. -/
theorem settings_evaluateForms (forms : List Form) :
    ((forms.mapM evaluateForm).run s).2.settings = s.settings := by
  induction forms generalizing s with
  | nil => rfl
  | cons form more ih =>
    rw [List.mapM_cons, run_bind, run_bind]
    exact (ih (h.read_keeps form).1).trans (h.settings_evaluateForm form)

end Session.Valid

/-! ## Lines -/

theorem run_evaluateText (text : String) (s : Session) :
    (evaluateText text).run s =
      ((Token.Stream.ofText s.settings.comments text).readAll.mapM evaluateForm).run s := rfl

/-- All that is reported comes after what was reported before. -/
theorem run_evaluateForms_heard (forms : List Form) (s : Session) :
    (forms.mapM evaluateForm).run s =
      (((forms.mapM evaluateForm).run s.unheard).1,
        ((forms.mapM evaluateForm).run s.unheard).2.heard s.reported) := by
  have hrun := Indifferent.mapM Indifferent.evaluateForm forms s.reported s.unheard
  rwa [s.heard_unheard] at hrun

/-- The forms of a text, with and without some tokens that come before them. -/
theorem run_evaluateForms_behind (forms : List Form) (earlier : List Token) (s : Session) :
    let later := (forms.mapM evaluateForm).run s.unheard
    ((forms.map (·.behind earlier)).mapM evaluateForm).run s =
      (later.1, (later.2.further earlier.length).heard s.reported) := by
  intro later
  have hechoes : ((forms.map (·.behind earlier)).mapM evaluateForm).run s.unheard =
      (later.1, later.2.further earlier.length) :=
    Echoes.mapM (fun form => Echoes.evaluateForm form earlier) forms s.unheard
  rw [run_evaluateForms_heard, hechoes]

/-- Let a text have no open string literal, no form that the end of the text or the limit on nesting
ends, and no quote mark for its last token.  Then it makes no difference whether a session is given
the text and another one on the lines after it, or one text after the other: the values are the
same, and so is the session, up to its reports.  These are the same as well and in the same order,
but for the places in the errors of the second text, which count the tokens of the first. -/
theorem evaluateText_newline {s : Session} (h : s.Reachable) {a : String} (b : String) :
    let stream := Token.Stream.ofText s.settings.comments a
    stream.unterminated = none → stream.tokens.getLast? ≠ some .quote →
    (∀ form ∈ stream.readAll, form.Closes) →
    let first := (evaluateText a).run s
    let second := (evaluateText b).run first.2
    let whole := (evaluateText (a ++ "\n" ++ b)).run s
    whole.1 = first.1 ++ second.1 ∧
      ∃ reported later, first.2.reported = s.reported ++ reported ∧
        second.2.reported = s.reported ++ reported ++ later ∧
        whole.2 = { second.2 with
          reported := s.reported ++ reported ++ later.map (·.further stream.length) } := by
  intro stream hopen hlast hcloses first second whole
  let other := Token.Stream.ofText s.settings.comments b
  let later := (other.readAll.mapM evaluateForm).run first.2.unheard
  have hquote : ¬ [.quote] <:+ stream.tokens := by
    rintro ⟨before, htokens⟩
    exact hlast (List.getLast?_eq_some_iff.mpr ⟨before, htokens.symm⟩)
  have hforms : (Token.Stream.ofText s.settings.comments (a ++ "\n" ++ b)).readAll =
      stream.readAll.map (·.before other) ++ other.readAll.map (·.behind stream.tokens) := by
    rw [Token.Stream.ofText_newline hopen b]
    exact Token.Stream.readAll_before hopen hquote hcloses rfl
  have hfirst : ((stream.readAll.map (·.before other)).mapM evaluateForm).run s = first := by
    rw [List.mapM_map]
    rfl
  have hwhole : whole = (first.1 ++ later.1,
      (later.2.further stream.length).heard first.2.reported) := by
    show (evaluateText (a ++ "\n" ++ b)).run s = _
    rw [run_evaluateText, hforms, List.mapM_append]
    simp only [run_bind, run_pure, hfirst, run_evaluateForms_behind]
    rfl
  have hsecond : second = (later.1, later.2.heard first.2.reported) := by
    have hsettings : first.2.settings = s.settings := h.valid.settings_evaluateForms _
    show (evaluateText b).run first.2 = _
    rw [run_evaluateText, hsettings, run_evaluateForms_heard]
  have hreported : first.2.reported =
      s.reported ++ ((stream.readAll.mapM evaluateForm).run s.unheard).2.reported :=
    congrArg (fun ended => ended.2.reported) (run_evaluateForms_heard stream.readAll s)
  rw [hwhole, hsecond]
  exact ⟨rfl, _, later.2.reported, hreported, by rw [← hreported]; rfl, by rw [← hreported]; rfl⟩

/-- The first line binds a name, has a parenthesis too many, goes too deep, and ends in a comment
that holds a parenthesis and a double quote.  The second one leaves a string literal open inside a
list. -/
theorem evaluateText_newline_comment :
    let s := Session.start { comments := true, maxDepth := 3 }
    let a := "(define x 5) ) (not (not (not x))) ; ( \""
    let b := "(+ x x) (a \"b"
    let stream := Token.Stream.ofText true a
    let whole := (evaluateText (a ++ "\n" ++ b)).run s
    s.Reachable ∧ stream.unterminated = none ∧ stream.tokens.getLast? ≠ some .quote ∧
      (∀ form ∈ stream.readAll, form.Closes) ∧
      whole.1 = ((evaluateText a).run s).1 ++ ((evaluateText b).run ((evaluateText a).run s).2).1 ∧
      whole.2.reported = [.unreadable (.faulty .unexpectedClose 5), .depthExceeded 3,
        .unreadable (.unterminatedString 23), .unreadable (.faulty .unclosedList 24)] := by
  intro s a b stream whole
  have hs : s.Reachable := .start _
  have hopen : stream.unterminated = none := by decide +kernel
  have hlast : stream.tokens.getLast? ≠ some .quote := by decide +kernel
  have hcloses : ∀ form ∈ stream.readAll, form.Closes := by decide +kernel
  obtain ⟨hvalues, -⟩ := evaluateText_newline hs b hopen hlast hcloses
  exact ⟨hs, hopen, hlast, hcloses, hvalues, by decide +kernel⟩

end DynLisp
