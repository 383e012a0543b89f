/-
  Proofs/Printing.lean --- a file is a session run line by line.

  WHAT THIS FILE IS FOR.  The program evaluates a file form by form.  After each form it
  takes what has been reported, and writes that and the value.  A host could as well give
  the lines to a session one by one, print the values of a line when all of it has been
  evaluated, and write all that was reported at the very end.  What is written is the same
  (`run_file_eq_session`).

  WHY.  A session does not look at its reports, so it makes no difference when they are
  taken (`Writes`).  And a value shows the same for as long as there is a session that
  evaluates, so it makes no difference when it is printed (`run_mapM_printing`).
-/
import DynLisp.CommandLine.Program
import DynLisp.Proofs.Contents
import DynLisp.Proofs.Lines
import DynLisp.Proofs.Numerals
import DynLisp.Proofs.Trimming

set_option autoImplicit false

namespace DynLisp

open Evaluation

theorem Session.Valid.unheard {s : Session} (h : s.Valid) : s.unheard.Valid :=
  ⟨h.memory, h.truth, h.resting⟩

/-- What is printed of a value: what it shows, on a line of its own. -/
def Store.printed (s : Store) (v : Value) : String := (s.content v).render ++ "\n"

namespace CommandLine

/-! ## A host that prints -/

/-- Do what gives some values, and print them. -/
def printing (work : Evaluation (List Value)) : Evaluation String := do
  let values ← work
  let s ← store
  return String.join (values.map s.printed)

/-- Evaluate all forms of a line, and print their values. -/
def printLine (line : String) : Evaluation String := printing (evaluateText line)

/-- What is written of some conditions. -/
def errorLines (conditions : List Condition) : String :=
  String.join (conditions.map Transcript.errorLine)

theorem join_singleton (text : String) : String.join [text] = text := by
  rw [String.join_cons, String.join_nil, String.append_empty]

/-- Texts joined group by group are the same as all of them joined. -/
theorem join_flatten (groups : List (List String)) :
    String.join groups.flatten = String.join (groups.map String.join) := by
  induction groups with
  | nil => rfl
  | cons group more ih =>
    rw [List.flatten_cons, String.join_append, ih, List.map_cons, String.join_cons]

theorem errorLines_append (conditions more : List Condition) :
    errorLines (conditions ++ more) = errorLines conditions ++ errorLines more := by
  rw [errorLines, List.map_append, String.join_append]
  rfl

/-! ## Values are printed at any time -/

/-- The values that are given can be seen, and stay what they are. -/
def Attending (work : Evaluation (List Value)) : Prop :=
  ∀ s : Session, s.Valid → s.Attends (work.run s).2 (work.run s).1

section Attending

variable {γ : Type} {work : γ → Evaluation (List Value)}

theorem attends_mapM (hwork : ∀ i, Attending (work i)) (items : List γ) {s : Session}
    (h : s.Valid) :
    s.Attends ((items.mapM work).run s).2 ((items.mapM work).run s).1.flatten := by
  induction items generalizing s with
  | nil => exact .refl h
  | cons item more ih =>
    have hitem := hwork item s h
    have hall := hitem.trans (ih hitem.valid)
    simpa only [List.mapM_cons, run_bind, run_pure, List.flatten_cons] using hall

theorem printed_of_attends {s s' : Session} {given values : List Value} (h : s.Valid)
    (hs' : s.Attends s' given) (hvalues : ∀ v ∈ values, s.memory.Visible v) :
    values.map s'.memory.store.printed = values.map s.memory.store.printed := by
  refine List.map_congr_left fun v hv => ?_
  rw [Store.printed, hs'.spares.content_eq h.memory (hvalues v hv), Store.printed]

/-- It makes no difference whether values are printed when they are given or when all have been. -/
theorem run_mapM_printing (hwork : ∀ i, Attending (work i)) (items : List γ) {s : Session}
    (h : s.Valid) :
    let ended := (items.mapM work).run s
    (items.mapM fun item => printing (work item)).run s =
      (ended.1.map fun values => String.join (values.map ended.2.memory.store.printed),
        ended.2) := by
  induction items generalizing s with
  | nil => rfl
  | cons item more ih =>
    have hitem := hwork item s h
    have hmore := attends_mapM hwork more hitem.valid
    simp only [List.mapM_cons, run_bind, run_pure, printing, run_store] at ih ⊢
    rw [ih hitem.valid]
    simp only [List.map_cons, printed_of_attends hitem.valid hmore hitem.visible]

end Attending

/-- The value of a form, by itself. -/
def formValues (form : Form) : Evaluation (List Value) := do
  let v ← evaluateForm form
  return [v]

theorem attending_formValues (form : Form) : Attending (formValues form) :=
  fun _ h => h.attends_evaluateForm form

theorem attending_evaluateText (text : String) : Attending (evaluateText text) :=
  fun s h => Session.Valid.attends_evaluateForms
    (Token.Stream.ofText s.settings.comments text).readAll h

theorem run_mapM_formValues (forms : List Form) (s : Session) :
    (forms.mapM formValues).run s =
      (((forms.mapM evaluateForm).run s).1.map ([·]), ((forms.mapM evaluateForm).run s).2) := by
  induction forms generalizing s with
  | nil => rfl
  | cons form more ih =>
    simp only [List.mapM_cons, run_bind, run_pure, formValues] at ih ⊢
    rw [ih, List.map_cons]

/-! ## Reports are taken at any time -/

/-- One computation writes what another one prints and reports, and takes the reports.  The other
one does not look at them. -/
structure Writes (act : Evaluation Transcript) (work : Evaluation String) : Prop where
  indifferent : Indifferent work
  valid : ∀ s : Session, s.Valid → (work.run s).2.Valid
  run : ∀ s : Session, s.Valid → s.reported = [] →
    act.run s = (⟨(work.run s).1, errorLines (work.run s).2.reported⟩, (work.run s).2.unheard)

theorem Transcript.append_def (t u : Transcript) :
    t ++ u = ⟨t.output ++ u.output, t.errors ++ u.errors⟩ := rfl

theorem Transcript.append_assoc (t u v : Transcript) : t ++ u ++ v = t ++ (u ++ v) := by
  simp only [append_def, String.append_assoc]

theorem Transcript.foldl_append (parts : List Transcript) (t : Transcript) :
    parts.foldl append t = t ++ concat parts := by
  induction parts generalizing t with
  | nil => simp [append_def, concat]
  | cons part more ih =>
    have hpart : append {} part = part := by simp [append]
    rw [concat, List.foldl_cons, List.foldl_cons, hpart, ih, ih]
    simp [append_def, append, String.append_assoc]

theorem Transcript.concat_cons (t : Transcript) (more : List Transcript) :
    concat (t :: more) = t ++ concat more := by
  have hnone : append {} t = t := by simp [append]
  rw [concat, List.foldl_cons, hnone, foldl_append]

namespace Writes

variable {act act' : Evaluation Transcript} {work work' : Evaluation String}

theorem nothing : Writes (return {}) (return "") where
  indifferent := .pure ""
  valid _ h := h
  run s _ hs := by
    have hunheard : s.unheard = s := by rw [Session.unheard, ← hs]
    rw [run_pure, run_pure, hunheard, hs]
    rfl

theorem append (h : Writes act work) (h' : Writes act' work') :
    Writes (do let t ← act; let u ← act'; return t ++ u)
      (do let a ← work; let b ← work'; return a ++ b) where
  indifferent := h.indifferent.bind fun _ => h'.indifferent.bind fun _ => .pure _
  valid s hs := h'.valid _ (h.valid s hs)
  run s hs hreported := by
    have hfirst := h.run s hs hreported
    have hended := h.valid s hs
    have hsecond := h'.run _ hended.unheard rfl
    -- The second part is run with and without the reports of the first.
    have hheard := h'.indifferent (work.run s).2.reported (work.run s).2.unheard
    rw [Session.heard_unheard] at hheard
    simp only [run_bind, run_pure, hfirst, hsecond, hheard, Transcript.append_def]
    exact congrArg (fun errors => (Transcript.mk _ errors, _)) (errorLines_append _ _).symm

/-- What holds of each item holds of all of them, one after another. -/
theorem concat {γ : Type} {act : γ → Evaluation Transcript} {work : γ → Evaluation String}
    (h : ∀ item, Writes (act item) (work item)) (items : List γ) :
    Writes (Transcript.concat <$> items.mapM act) (String.join <$> items.mapM work) := by
  induction items with
  | nil => exact nothing
  | cons item more ih =>
    have hall := (h item).append ih
    simp only [map_eq_pure_bind, bind_assoc, pure_bind] at hall
    simpa only [List.mapM_cons, map_eq_pure_bind, bind_assoc, pure_bind, Transcript.concat_cons,
      String.join_cons] using hall

/-- Only how a computation runs in a valid session matters. -/
theorem of_run_eq (h : Writes act work) (hwork : Indifferent work')
    (heq : ∀ s : Session, s.Valid → work'.run s = work.run s) : Writes act work' where
  indifferent := hwork
  valid s hs := by
    rw [heq s hs]
    exact h.valid s hs
  run s hs hreported := by
    rw [heq s hs]
    exact h.run s hs hreported

end Writes

theorem indifferent_printing {work : Evaluation (List Value)} (h : Indifferent work) :
    Indifferent (printing work) :=
  h.bind fun _ => fun _ _ => rfl

/-! ## Forms, lines and files -/

theorem writes_transcribeForm (form : Form) :
    Writes (transcribeForm form) (printing (formValues form)) where
  indifferent := indifferent_printing ((Indifferent.evaluateForm form).bind fun _ => .pure _)
  valid _ h := (h.read_keeps form).1
  run s h hs := by
    simp only [printing, formValues, run_bind, run_pure, run_store, List.map_cons, List.map_nil,
      join_singleton]
    rfl

theorem writes_transcribeForms (forms : List Form) :
    Writes (Transcript.concat <$> forms.mapM transcribeForm)
      (printing (forms.mapM evaluateForm)) := by
  refine (Writes.concat writes_transcribeForm forms).of_run_eq
    (indifferent_printing (.mapM .evaluateForm forms)) fun s h => ?_
  rw [map_eq_pure_bind, run_bind, run_mapM_printing attending_formValues forms h,
    run_mapM_formValues]
  simp only [printing, run_bind, run_pure, run_store, List.map_map, Function.comp_def,
    List.map_cons, List.map_nil, join_singleton]

theorem run_transcribeLine (line : String) (s : Session) :
    (transcribeLine line).run s =
      (Transcript.concat <$> (Token.Stream.ofText s.settings.comments line).readAll.mapM
        transcribeForm).run s := by
  simp only [transcribeLine, streamOf, run_bind, run_pure, run_get]

theorem run_printLine (line : String) (s : Session) :
    let forms := (Token.Stream.ofText s.settings.comments line).readAll
    (printLine line).run s = (printing (forms.mapM evaluateForm)).run s := by
  intro forms
  simp only [printLine, printing, run_bind, run_evaluateText, forms]

theorem writes_transcribeLine (line : String) :
    Writes (transcribeLine line) (printLine line) where
  indifferent := indifferent_printing (.evaluateText line)
  valid s h := (attending_evaluateText line s h).valid
  run s h hs := by
    rw [run_transcribeLine, run_printLine, (writes_transcribeForms _).run s h hs]

section Blanks

variable {line : List Char} (h : Text.trim line = [])
include h

theorem readAll_blanks (comments : Bool) :
    (Token.Stream.ofText comments (String.ofList line)).readAll = [] :=
  Token.Stream.readAll_ofText_blanks (Text.trim_eq_nil_iff.mp h)

/-- A blank line prints and reports nothing. -/
theorem run_printLine_blanks (s : Session) : (printLine (String.ofList line)).run s = ("", s) := by
  simp only [printLine, printing, run_bind, run_pure, run_store, run_evaluateText,
    readAll_blanks h, List.mapM_nil, List.map_nil, String.join_nil]

theorem transcribeLine_blanks : transcribeLine (String.ofList line) = return {} := by
  funext s
  refine (run_transcribeLine _ s).trans ?_
  rw [readAll_blanks h]
  rfl

end Blanks

/-- A blank line could as well be evaluated. -/
theorem transcribeFile_eq (content : String) :
    transcribeFile content = Transcript.concat <$> (Text.lines content.toList).mapM fun line =>
      transcribeLine (String.ofList line) := by
  have hline : ∀ line : List Char,
      (if Text.trim line = [] then return {} else transcribeLine (String.ofList line)) =
        transcribeLine (String.ofList line) := by
    intro line
    split
    · rename_i hblank
      exact (transcribeLine_blanks hblank).symm
    · rfl
  simp only [transcribeFile, hline]

theorem writes_transcribeFile (content : String) :
    Writes (transcribeFile content)
      (String.join <$> (Text.lines content.toList).mapM fun line =>
        printLine (String.ofList line)) := by
  rw [transcribeFile_eq]
  exact .concat (fun line => writes_transcribeLine (String.ofList line)) _

/-! ## Arguments -/

namespace Options

/-- Arguments that ask for a file to be evaluated with some settings. -/
def arguments (settings : Settings) (name : String) : List String :=
  (if settings.comments then ["--comments"] else []) ++
    ["--max-depth", String.ofList (Nat.toDigits 10 settings.maxDepth), "--", name]

theorem depth?_toDigits {n : Nat} (h : n < 2 ^ 64) : depth? (Nat.toDigits 10 n) = some n := by
  unfold depth?
  split
  · rename_i digits heq
    have hdigit := Decimal.isDigit_toDigits n '+' (by rw [heq]; exact List.mem_cons_self)
    exact absurd hdigit (by decide)
  · simp only [Decimal.natural?_toDigits]
    exact if_pos h

theorem take_maxDepth {options options' : Options} {value : String}
    (h : options.limiting value.toList = some options') (more : List String) :
    take options ("--max-depth" :: value :: more) = take options' more := by
  have hsplit : splitLong ['m', 'a', 'x', '-', 'd', 'e', 'p', 't', 'h'] = ("max-depth", none) := by
    decide
  simp [take, hsplit, h]

/-- All settings can be asked for, as far as the depth limit is a number of 64 bits. -/
theorem requestOf_arguments (settings : Settings) (hdepth : settings.maxDepth < 2 ^ 64)
    {name : String} (hname : name ≠ "") :
    requestOf (arguments settings name) = .evaluate settings (some name) := by
  obtain ⟨comments, maxDepth⟩ := settings
  have hcomments : ∀ more, take {} ("--comments" :: more) = take { comments := true } more :=
    fun _ => rfl
  have hfile : ∀ comments, take ⟨comments, none, none⟩
      ["--max-depth", String.ofList (Nat.toDigits 10 maxDepth), "--", name] =
        .evaluate ⟨comments, maxDepth⟩ (some name) := by
    intro comments
    have hlimit : (Options.mk comments none none).limiting
        (String.ofList (Nat.toDigits 10 maxDepth)).toList =
          some ⟨comments, some maxDepth, none⟩ := by
      rw [String.toList_ofList]
      simp only [limiting, depth?_toDigits hdepth]
    have hrest : ∀ options : Options, take options ["--", name] = takeFiles options [name] :=
      fun _ => rfl
    rw [take_maxDepth hlimit, hrest]
    simp [takeFiles, naming, hname, request]
  cases comments with
  | true => exact (hcomments _).trans (hfile true)
  | false => exact hfile false

end Options

/-! ## The program -/

theorem writes_evaluated {act : String → Evaluation Transcript} {text : String}
    {work : Evaluation String} (h : Writes (act text) work) (settings : Settings) :
    evaluated settings act text =
      ⟨0, ⟨(work.run (Session.start settings)).1,
        errorLines (work.run (Session.start settings)).2.reported⟩⟩ := by
  rw [evaluated, h.run _ (Session.valid_start settings) rfl]

/-- To evaluate a file, the program prints what a session gives that is given the lines one by one,
each value on a line of its own, and says all that this session reports, in order, each on a line
that starts with `Error: `.  It makes no difference whether the values of a line are printed before
the next line is evaluated or at the end, and blank lines come to nothing. -/
theorem run_file_eq_session {settings : Settings} {name content : String}
    {arguments : List String} {file : String → Except String String}
    (hrequest : requestOf arguments = .evaluate settings (some name))
    (hfile : file name = .ok content) (input : String) :
    let lines := (Text.lines content.toList).map String.ofList
    let given := (lines.mapM evaluateText).run (Session.start settings)
    let shown (v : Value) := (given.2.memory.store.content v).render ++ "\n"
    let said (condition : Condition) := "Error: " ++ condition.message ++ "\n"
    run arguments file input =
        ⟨0, { output := String.join (given.1.flatten.map shown),
              errors := String.join (given.2.reported.map said) }⟩ ∧
      (lines.mapM printLine).run (Session.start settings) =
        (given.1.map fun values => String.join (values.map shown), given.2) ∧
      ∀ line, Text.trim line = [] → ∀ s : Session,
        (printLine (String.ofList line)).run s = ("", s) := by
  intro lines given shown said
  have hprinted : (lines.mapM printLine).run (Session.start settings) =
      (given.1.map fun values => String.join (values.map shown), given.2) :=
    run_mapM_printing attending_evaluateText lines (Session.valid_start settings)
  refine ⟨?_, hprinted, fun line hblank s => run_printLine_blanks hblank s⟩
  have hoperation : (Text.lines content.toList).mapM (fun line => printLine (String.ofList line)) =
      lines.mapM printLine := by
    rw [List.mapM_map]
    rfl
  have houtput : String.join (given.1.map fun values => String.join (values.map shown)) =
      String.join (given.1.flatten.map shown) := by
    rw [List.map_flatten, join_flatten, List.map_map]
    rfl
  rw [run, hrequest]
  simp only [hfile]
  rw [writes_evaluated (writes_transcribeFile content), map_eq_pure_bind, hoperation]
  simp only [run_bind, run_pure, hprinted, houtput]
  rfl

/-- A file with a definition, a blank line, and something of all that can go wrong, evaluated with
comments and a limit of 2. -/
theorem run_file_eq_session_faults :
    let content := "(define x 5) x ; (\n \t\n(/ x 0) ) (not (not x)) (y)\r\n((x) 1) '(a \"b)"
    let settings : Settings := { comments := true, maxDepth := 2 }
    let arguments := Options.arguments settings "program.lisp"
    let lines := (Text.lines content.toList).map String.ofList
    let given := (lines.mapM evaluateText).run (Session.start settings)
    arguments = ["--comments", "--max-depth", "2", "--", "program.lisp"] ∧
      given.1.map List.length = [2, 0, 4, 2] ∧ given.2.reported.length = 7 ∧
      run arguments (fun _ => .ok content) "" =
        ⟨0, { output := "5\n5\n()\n()\n()\n()\n()\n()\n",
              errors := "Error: Arithmetic error in '/': division by zero\n" ++
                "Error: Parse error: Unexpected ')' (found ')' at token 5)\n" ++
                "Error: Evaluation depth limit exceeded (max: 2)\n" ++
                "Error: Unknown function: y\n" ++
                "Error: Invalid function call: ((x) 1)\n" ++
                "Error: Parse error: Unterminated string literal, read to end of input\n" ++
                "Error: Parse error: Expected ')' before end of input\n" }⟩ := by
  intro content settings arguments lines given
  have hrequest : requestOf arguments = .evaluate settings (some "program.lisp") :=
    Options.requestOf_arguments settings (by norm_num) (by decide)
  let file : String → Except String String := fun _ => .ok content
  have hfile : file "program.lisp" = .ok content := rfl
  obtain ⟨hrun, -⟩ := run_file_eq_session hrequest hfile ""
  refine ⟨by decide +kernel, by decide +kernel, by decide +kernel, hrun.trans ?_⟩
  decide +kernel

end CommandLine

end DynLisp
