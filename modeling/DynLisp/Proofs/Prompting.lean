/-
  Proofs/Prompting.lean --- a file typed at the prompt.

  WHAT THIS FILE IS FOR.  The prompt and a file are two ways to give the program the same
  lines.  The prompt greets, trims each line, and says farewell.  Between the greeting and
  the farewell it writes what is written of a file (`run_prompt_eq_file`), as long as no
  line is a command, and none leaves a string literal open.  A command is obeyed by the
  prompt and evaluated in a file.  An open string literal holds the white space at the end
  of its line in a file, and not at the prompt.

  LINE ENDS.  The prompt trims a carriage return with the rest, so it answers the same
  whether or not it is given one with its line (`respondAll_rawLines`).
-/
import DynLisp.Proofs.Printing

set_option autoImplicit false

namespace DynLisp

open Evaluation

namespace CommandLine

/-! ## Answers -/

/-- The prompt sees of a line what is left when it is trimmed. -/
theorem respond_congr {line line' : List Char} (h : Text.trim line = Text.trim line') :
    respond line = respond line' := by
  unfold respond
  rw [h]

theorem respondAll_congr {lines lines' : List (List Char)}
    (h : lines.map Text.trim = lines'.map Text.trim) : respondAll lines = respondAll lines' := by
  induction lines generalizing lines' with
  | nil =>
    obtain rfl := List.map_eq_nil_iff.mp h.symm
    rfl
  | cons line more ih =>
    obtain ⟨line', more', rfl, hline, hmore⟩ := List.map_eq_cons_iff.mp h.symm
    rw [respondAll, respondAll, respond_congr hline.symm, ih hmore.symm]

/-- It makes no difference to the prompt whether its lines are given with carriage returns. -/
theorem respondAll_rawLines (text : List Char) :
    respondAll (Text.rawLines text) = respondAll (Text.lines text) :=
  respondAll_congr (Text.trim_lines text).symm

/-! ## Lines that hold forms -/

/-- The line is no command, and leaves no string literal open. -/
structure HoldsForms (comments : Bool) (line : List Char) : Prop where
  ordinary : Command.find? (String.ofList (Text.trim line)) = none
  closed : (Token.Stream.ofText comments (String.ofList line)).unterminated = none

variable {s : Session}

/-- Trimmed or not, the line is transcribed to the same. -/
theorem run_respond {line : List Char} (h : HoldsForms s.settings.comments line) :
    (respond line).run s =
      let told := (transcribeLine (String.ofList line)).run s
      ((told.1, true), told.2) := by
  by_cases hblank : Text.trim line = []
  · rw [transcribeLine_blanks hblank, respond, hblank]
    rfl
  have hline : String.ofList (Text.trim line) ≠ "" := by simpa using hblank
  have htrimmed : (transcribeLine (String.ofList (Text.trim line))).run s =
      (transcribeLine (String.ofList line)).run s := by
    rw [run_transcribeLine, run_transcribeLine, Token.Stream.ofText_trim h.closed]
  simp only [respond, hline, if_false, h.ordinary, run_bind, run_pure, htrimmed]

/-- What holds between two lines: all that was reported has been taken. -/
structure BetweenLines (settings : Settings) (s : Session) : Prop where
  valid : s.Valid
  reported : s.reported = []
  settings : s.settings = settings

theorem BetweenLines.transcribeLine {settings : Settings}
    (h : BetweenLines settings s) (line : String) :
    BetweenLines settings ((CommandLine.transcribeLine line).run s).2 := by
  have hwrites := writes_transcribeLine line
  rw [hwrites.run s h.valid h.reported]
  refine ⟨(hwrites.valid s h.valid).unheard, rfl, ?_⟩
  exact (h.valid.settings_evaluateForms _).trans h.settings

/-- The prompt stays in step with a file, line by line. -/
theorem run_respondAll {settings : Settings} {lines : List (List Char)}
    (hlines : ∀ line ∈ lines, HoldsForms settings.comments line)
    (hs : BetweenLines settings s) :
    (respondAll lines).run s =
      let told := (lines.mapM fun line => transcribeLine (String.ofList line)).run s
      (Transcript.concat told.1 ++ farewell, told.2) := by
  induction lines generalizing s with
  | nil => rfl
  | cons line more ih =>
    obtain ⟨hline, hmore⟩ := List.forall_mem_cons.mp hlines
    rw [← hs.settings] at hline
    have hstep := ih hmore (hs.transcribeLine (String.ofList line))
    simp only [respondAll, run_bind, run_respond hline, if_true, run_pure, hstep, List.mapM_cons,
      Transcript.concat_cons, Transcript.append_assoc]

/-! ## The program -/

theorem banner_append_farewell (t : Transcript) :
    banner ++ (t ++ farewell) =
      { output := banner.output ++ t.output ++ "Goodbye!\n", errors := t.errors } := by
  have hfarewell : farewell = { output := "Goodbye!\n" } := rfl
  have hbanner : banner.errors = "" := rfl
  simp only [hfarewell, hbanner, Transcript.append_def, String.append_assoc, String.append_empty,
    String.empty_append]

/-- Fed a text without commands and open string literals, the prompt writes between its greeting
and its farewell what the program writes of a file with this text, and the same errors.  It makes
no difference whether it is given the carriage returns at the ends of lines. -/
theorem run_prompt_eq_file {settings : Settings} {name input : String}
    {arguments arguments' : List String} {file : String → Except String String}
    (hprompt : requestOf arguments = .evaluate settings none)
    (hrequest : requestOf arguments' = .evaluate settings (some name))
    (hfile : file name = .ok input)
    (hlines : ∀ line ∈ Text.lines input.toList, HoldsForms settings.comments line)
    (input' : String) :
    let told := (run arguments' file input').written
    run arguments file input =
        ⟨0, { output := banner.output ++ told.output ++ "Goodbye!\n", errors := told.errors }⟩ ∧
      transcribePrompt input = (banner ++ ·) <$> respondAll (Text.rawLines input.toList) := by
  intro told
  refine ⟨?_, by rw [respondAll_rawLines, transcribePrompt]⟩
  have hstart : BetweenLines settings (Session.start settings) :=
    ⟨Session.valid_start settings, rfl, rfl⟩
  have hall := run_respondAll hlines hstart
  have htold : told = ((transcribeFile input).run (Session.start settings)).1 := by
    simp only [told, run, hrequest, hfile, evaluated]
  rw [htold, ← banner_append_farewell, run, hprompt]
  simp only [evaluated, transcribePrompt, transcribeFile_eq, map_eq_pure_bind, run_bind, run_pure,
    hall]

/-- A text with white space and a carriage return around its lines, a comment that holds a quote, a
word that would be a command if more did not follow it, and a call that fails. -/
theorem run_prompt_eq_file_comments :
    let input := " (define x 5)\t\r\n\u2003 x ; \"\r\n\n:quit x\n(x)"
    let settings : Settings := { comments := true }
    let file : String → Except String String := fun _ => .ok input
    (∀ line ∈ Text.lines input.toList, HoldsForms settings.comments line) ∧
      run ["--comments", "program.lisp"] file "" =
        ⟨0, { output := "5\n5\n()\n5\n()\n", errors := "Error: Unknown function: x\n" }⟩ ∧
      run ["--comments"] file input =
        ⟨0, { output := banner.output ++ "5\n5\n()\n5\n()\n" ++ "Goodbye!\n",
              errors := "Error: Unknown function: x\n" }⟩ := by
  intro input settings file
  have hlines : ∀ line ∈ Text.lines input.toList, HoldsForms settings.comments line := by
    intro line hline
    have hall : ∀ line ∈ Text.lines input.toList,
        Command.find? (String.ofList (Text.trim line)) = none ∧
          (Token.Stream.ofText true (String.ofList line)).unterminated = none := by
      decide +kernel
    exact ⟨(hall line hline).1, (hall line hline).2⟩
  have hprompt : requestOf ["--comments"] = .evaluate settings none := by decide +kernel
  have hrequest : requestOf ["--comments", "program.lisp"] =
      .evaluate settings (some "program.lisp") := by decide +kernel
  have hfile : run ["--comments", "program.lisp"] file "" =
      ⟨0, { output := "5\n5\n()\n5\n()\n", errors := "Error: Unknown function: x\n" }⟩ := by
    decide +kernel
  have hinput : file "program.lisp" = .ok input := rfl
  have hagree := (run_prompt_eq_file hprompt hrequest hinput hlines "").1
  rw [hfile] at hagree
  exact ⟨hlines, hfile, hagree⟩

end CommandLine

end DynLisp
