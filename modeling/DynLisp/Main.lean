/-
  Main.lean --- the program.

  WHAT THIS FILE IS FOR.  Only this file talks to the world.  It finds out what
  the arguments ask for, reads the file or the input, and writes what
  `CommandLine` says.  At the prompt it does so line by line.
-/
import DynLisp.CommandLine.Program

set_option autoImplicit false

namespace DynLisp.CommandLine

/-- Write a transcript to the two channels. -/
def emit (written : Transcript) : IO Unit := do
  IO.eprint written.errors
  IO.print written.output
  (← IO.getStdout).flush

/-- Write how a run ends, and end it. -/
def conclude (outcome : Outcome) : IO UInt32 := do
  emit outcome.written
  return UInt32.ofNat outcome.status

/-- Why a file could not be read. -/
def reasonOf : IO.Error → String
  | .noFileOrDirectory _ _ _ => "No such file or directory (os error 2)"
  | .permissionDenied _ _ _ => "Permission denied (os error 13)"
  | .inappropriateType _ _ "not a directory" => "Not a directory (os error 20)"
  | .inappropriateType _ _ _ => "Is a directory (os error 21)"
  | .userError _ => "stream did not contain valid UTF-8"
  | error => toString error

/-- Answer lines of the input until one of them, or their end, ends the session. -/
partial def converse (input : IO.FS.Stream) (session : Session) : IO Unit := do
  let line ← input.getLine
  if line.isEmpty then emit farewell
  else
    let ((answer, goesOn), session) := (respond line.toList).run session
    emit answer
    if goesOn then converse input session

end DynLisp.CommandLine

open DynLisp CommandLine

/-- The program. -/
def main (arguments : List String) : IO UInt32 := do
  match requestOf arguments with
  | .evaluate settings none =>
    emit banner
    converse (← IO.getStdin) (Session.start settings)
    return 0
  | .evaluate settings (some name) =>
    match ← (IO.FS.readFile name).toBaseIO with
    | .ok content => conclude (evaluated settings transcribeFile content)
    | .error error => conclude (badFile name (reasonOf error))
  | .version => conclude ⟨0, versionText⟩
  | .help => conclude ⟨0, usageText⟩
  | .misuse => conclude misused
