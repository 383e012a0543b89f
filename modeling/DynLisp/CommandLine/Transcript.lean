/-
  CommandLine/Transcript.lean --- what is written while lines are evaluated.

  WHAT THIS FILE IS FOR.  The program writes results to one channel and
  conditions to another.  The order between the two is not kept; the order
  within each is.
-/
import DynLisp.Session.Reading

set_option autoImplicit false

namespace DynLisp.CommandLine

/-- The text written to each channel. -/
structure Transcript where
  output : String := ""
  errors : String := ""
  deriving DecidableEq, Repr

namespace Transcript

/-- One text after the other, on both channels. -/
def append (t u : Transcript) : Transcript := ⟨t.output ++ u.output, t.errors ++ u.errors⟩

instance : Append Transcript := ⟨append⟩

/-- Transcripts one after another. -/
def concat (parts : List Transcript) : Transcript := parts.foldl append {}

/-- Lines on the output. -/
def ofLines (lines : List String) : Transcript :=
  { output := String.join (lines.map fun line => line ++ "\n") }

/-- A condition as it is written. -/
def errorLine (condition : Condition) : String := "Error: " ++ condition.message ++ "\n"

end Transcript

open Evaluation

/-- Evaluate a form, and write its conditions and then its value. -/
def transcribeForm (form : Form) : Evaluation Transcript := do
  let v ← evaluateForm form
  let conditions ← modifyGet Session.takeReported
  return {
    output := ((← store).content v).render ++ "\n"
    errors := String.join (conditions.map Transcript.errorLine) }

/-- Evaluate all forms of a line. -/
def transcribeLine (line : String) : Evaluation Transcript := do
  Transcript.concat <$> (← streamOf line).readAll.mapM transcribeForm

/-! ## Files -/

/-- Evaluate the lines of a file, each by itself: a form ends with its line at the latest.  Blank
lines are passed over. -/
def transcribeFile (content : String) : Evaluation Transcript :=
  Transcript.concat <$> (Text.lines content.toList).mapM fun line =>
    if Text.trim line = [] then return {} else transcribeLine (String.ofList line)

end DynLisp.CommandLine
