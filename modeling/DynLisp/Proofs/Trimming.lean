/-
  Proofs/Trimming.lean --- white space at the ends of a text.

  WHAT THIS FILE IS FOR.  The prompt trims a line before it is cut into tokens, and a file
  does not.  In front, white space is a gap like any other.  At the end it may end a word,
  or be one more gap, or be the last part of a comment, and in all three cases the tokens
  stay (`Cut.lexemes_blanks`).  The exception is a string literal that is never closed: it
  takes the white space in.

  LINE ENDS.  A carriage return is white space.  So a line that is trimmed is the same
  whether or not one was left at its end (`trim_lines`).
-/
import DynLisp.Proofs.Coverage
import DynLisp.Proofs.Cuts
import Mathlib.Data.List.Basic
import Mathlib.Data.List.TakeWhile

set_option autoImplicit false

namespace DynLisp

/-! ## White space -/

namespace Text

/-- All characters of the text are white space. -/
def IsBlanks (text : List Char) : Prop := ∀ c ∈ text, isBlank c = true

theorem IsBlanks.dropWhile_eq {blanks : List Char} (h : IsBlanks blanks) :
    blanks.dropWhile isBlank = [] := List.dropWhile_eq_nil_iff.mpr h

/-- What is trimmed off is white space, on both ends. -/
theorem exists_trim (text : List Char) :
    ∃ before after, IsBlanks before ∧ IsBlanks after ∧ text = before ++ (trim text ++ after) := by
  let kept := text.dropWhile isBlank
  refine ⟨text.takeWhile isBlank, (kept.reverse.takeWhile isBlank).reverse, ?_, ?_, ?_⟩
  · exact fun c hc => List.mem_takeWhile_imp hc
  · exact fun c hc => List.mem_takeWhile_imp (List.mem_reverse.mp hc)
  · have hkept : trim text ++ (kept.reverse.takeWhile isBlank).reverse = kept := by
      rw [trim, ← List.reverse_append, List.takeWhile_append_dropWhile, List.reverse_reverse]
    rw [hkept, List.takeWhile_append_dropWhile]

theorem trim_eq_nil_iff {text : List Char} : trim text = [] ↔ IsBlanks text := by
  constructor
  · intro h
    obtain ⟨before, after, hbefore, hafter, htext⟩ := exists_trim text
    rw [h, List.nil_append] at htext
    rw [htext]
    exact List.forall_mem_append.mpr ⟨hbefore, hafter⟩
  · intro h
    rw [trim, h.dropWhile_eq]
    rfl

/-- White space at the end is trimmed off. -/
theorem trim_append_blanks (text : List Char) {blanks : List Char} (h : IsBlanks blanks) :
    trim (text ++ blanks) = trim text := by
  unfold trim
  rw [List.dropWhile_append]
  split
  · rename_i hnone
    rw [List.isEmpty_iff.mp hnone, h.dropWhile_eq]
  · have hblanks : ∀ c ∈ blanks.reverse, isBlank c = true :=
      fun c hc => h c (List.mem_reverse.mp hc)
    rw [List.reverse_append, List.dropWhile_append_of_pos hblanks]

theorem trim_dropFinalReturn (line : List Char) : trim (dropFinalReturn line) = trim line := by
  unfold dropFinalReturn
  split
  · rename_i hlast
    have hreturn : IsBlanks ['\r'] := List.forall_mem_singleton.mpr (by decide)
    have hline := List.dropLast_append_getLast? '\r' hlast
    rw [← trim_append_blanks line.dropLast hreturn, hline]
  · rfl

/-! ## Lines as they come -/

/-- The lines that the pieces stand for, with the carriage returns that they may end in. -/
def rawLinesOfPieces : List (List Char) → List (List Char)
  | [] => []
  | [last] => if last.isEmpty then [] else [last]
  | piece :: more => piece :: rawLinesOfPieces more

/-- The lines of a text, cut at its line feeds and otherwise unchanged. -/
def rawLines (text : List Char) : List (List Char) := rawLinesOfPieces (splitAtLineFeeds text)

/-- A line is trimmed to the same whether or not it has lost its carriage return. -/
theorem trim_lines (text : List Char) : (lines text).map trim = (rawLines text).map trim := by
  unfold lines rawLines
  fun_induction linesOfPieces (splitAtLineFeeds text) with
  | case1 => rfl
  | case2 last hempty => rw [rawLinesOfPieces, if_pos hempty]
  | case3 last hempty => rw [rawLinesOfPieces, if_neg hempty]
  | case4 piece more hmore ih =>
    rw [rawLinesOfPieces, List.map_cons, List.map_cons, trim_dropFinalReturn, ih]
    exact hmore

end Text

/-! ## Lexemes -/

namespace Token

open Text

variable {comments : Bool} {blanks : List Char}

/-- White space is a gap, whatever comes after it. -/
theorem Gap.of_isBlanks (h : IsBlanks blanks) (rest : List Char) : Gap comments rest blanks := by
  induction blanks with
  | nil => exact .nothing
  | cons c more ih =>
    obtain ⟨hc, hmore⟩ := List.forall_mem_cons.mp h
    exact .blank hc (ih hmore)

theorem afterGap_blanks_append (h : IsBlanks blanks) (text : List Char) :
    afterGap comments (blanks ++ text) = afterGap comments text :=
  (Gap.of_isBlanks h text).afterGap_append

theorem afterGap_blanks (h : IsBlanks blanks) : afterGap comments blanks = [] := by
  have hall := @afterGap_blanks_append comments _ h []
  rwa [List.append_nil, afterGap] at hall

/-- The last gap of a text takes in the white space after it. -/
theorem Gap.afterGap_append_blanks {gap : List Char} (hgap : Gap comments [] gap)
    (h : IsBlanks blanks) : afterGap comments (gap ++ blanks) = [] := by
  induction hgap with
  | nothing => exact afterGap_blanks h
  | blank hc _ ih => rw [List.cons_append, afterGap, if_pos hc, ih]
  | @comment body gap hcomments hbody hend _ ih =>
    subst hcomments
    have hkept : ∀ c ∈ body, decide (c ≠ '\n') = true :=
      fun c hc => decide_eq_true fun heq => hbody (heq ▸ hc)
    rw [List.cons_append, List.append_assoc, afterGap_comment, List.dropWhile_append_of_pos hkept]
    cases gap with
    | nil => exact afterGap_blanks fun c hc => h c ((List.dropWhile_suffix _).subset hc)
    | cons c rest =>
      obtain rfl : c = '\n' := hend c rfl
      exact ih

/-- A gap before something stays one whatever comes after that. -/
theorem Gap.append {rest gap : List Char} (h : Gap comments rest gap) (hrest : rest ≠ [])
    (more : List Char) : Gap comments (rest ++ more) gap := by
  induction h with
  | nothing => exact .nothing
  | blank hc _ ih => exact .blank hc ih
  | @comment body gap hcomments hbody hend _ ih =>
    refine .comment hcomments hbody (fun c hc => hend c ?_) ih
    rwa [← List.append_assoc, List.head?_append_of_ne_nil _ (by simp [hrest])] at hc

theorem Lexeme.Stands.append_blanks {lexeme : Lexeme} {rest : List Char}
    (h : lexeme.Stands comments rest) (hclosed : lexeme.closed = true)
    (hblanks : IsBlanks blanks) : lexeme.Stands comments (rest ++ blanks) := by
  cases h with
  | opening => exact .opening _
  | closing => exact .closing _
  | quote => exact .quote _
  | string h => exact .string h _
  | openString => simp at hclosed
  | word h hrest =>
    refine .word h fun c hc => ?_
    cases rest with
    | cons d more => exact hrest c hc
    | nil =>
      have hblank := hblanks c (List.mem_of_head? hc)
      simp [isWordChar, hblank]

theorem Lexeme.Stands.source_ne_nil {lexeme : Lexeme} {rest : List Char}
    (h : lexeme.Stands comments rest) : lexeme.source ≠ [] := by
  cases h with
  | word hword => exact hword.ne_nil
  | opening | closing | quote | string | openString => simp [Lexeme.source, render]

/-- White space at the end of a text changes none of its lexemes, unless it is taken in by an open
string literal. -/
theorem Cut.lexemes_blanks {text : List Char} {found : List Lexeme} (h : Cut comments text found)
    (hblanks : IsBlanks blanks)
    (hclosed : ∀ lexeme ∈ lexemes comments (text ++ blanks), lexeme.closed = true) :
    lexemes comments (text ++ blanks) = found := by
  induction h with
  | gap hgap =>
    have hnone := hgap.afterGap_append_blanks hblanks
    rw [lexemes_congr (hnone.trans (afterGap.eq_1 comments).symm), lexemes_nil]
  | @lexeme gap rest lexeme more hgap hlexeme _ ih =>
    have hgap' := hgap.append (List.append_ne_nil_of_left_ne_nil hlexeme.source_ne_nil rest) blanks
    rw [List.append_assoc] at hgap'
    rw [List.append_assoc, List.append_assoc, lexemes_congr hgap'.afterGap_append] at hclosed ⊢
    have hlast : lexeme.closed = true := by
      cases hlexeme with
      | @openString content hcontent =>
        have hquotes : '"' ∉ content.toList ++ blanks := by
          intro hmem
          rcases List.mem_append.mp hmem with hmem | hmem
          · exact hcontent hmem
          · exact absurd (hblanks _ hmem) (by decide)
        have hopen : lexemes comments (Lexeme.source ⟨.string content, false⟩ ++ ([] ++ blanks)) =
            [⟨.string (String.ofList (content.toList ++ blanks)), false⟩] :=
          lexemes_openString hquotes
        rw [hopen] at hclosed
        exact absurd (hclosed _ (List.mem_singleton_self _)) (by simp)
      | opening | closing | quote | string | word => rfl
    rw [(hlexeme.append_blanks hlast hblanks).lexemes_append] at hclosed ⊢
    rw [ih (List.forall_mem_cons.mp hclosed).2]

/-- A text that leaves no string literal open has the same lexemes when it is trimmed. -/
theorem lexemes_trim {text : List Char}
    (hclosed : ∀ lexeme ∈ lexemes comments text, lexeme.closed = true) :
    lexemes comments (trim text) = lexemes comments text := by
  obtain ⟨before, after, hbefore, hafter, htext⟩ := exists_trim text
  have hlexemes : lexemes comments text = lexemes comments (trim text ++ after) := by
    conv_lhs => rw [htext]
    exact lexemes_congr (afterGap_blanks_append hbefore _)
  rw [hlexemes] at hclosed
  rw [hlexemes, (cut_lexemes (trim text)).lexemes_blanks hafter hclosed]

namespace Stream

theorem ofText_trim {line : List Char}
    (hopen : (ofText comments (String.ofList line)).unterminated = none) :
    ofText comments (String.ofList (trim line)) = ofText comments (String.ofList line) := by
  have hclosed : ∀ lexeme ∈ lexemes comments line, lexeme.closed = true := by
    intro lexeme hlexeme
    have hnone : (lexemes comments (String.ofList line).toList).findIdx? (!·.closed) = none := hopen
    rw [String.toList_ofList, List.findIdx?_eq_none_iff] at hnone
    simpa using hnone lexeme hlexeme
  unfold ofText
  simp only [String.toList_ofList, lexemes_trim hclosed]

/-- There is nothing to be read in a blank line. -/
theorem readAll_ofText_blanks {line : List Char} (h : IsBlanks line) :
    (ofText comments (String.ofList line)).readAll = [] := by
  have hnone : lexemes comments line = [] := by
    rw [lexemes_congr ((afterGap_blanks h).trans (afterGap.eq_1 comments).symm), lexemes_nil]
  apply readAll_of_exhausted
  simp [isExhausted, length, ofText, String.toList_ofList, hnone]

end Stream

end Token

end DynLisp
