/-
  CommandLine/Program.lean --- the program as a function of what it is given.

  WHAT THIS FILE IS FOR.  What the program writes, and the status it ends with,
  follow from its arguments, the files it can read, and its input.
-/
import DynLisp.CommandLine.Options
import DynLisp.CommandLine.Prompt

set_option autoImplicit false

namespace DynLisp.CommandLine

/-- How a run of the program ends. -/
structure Outcome where
  status : Nat
  written : Transcript
  deriving DecidableEq, Repr

/-- The text that names the program and its version. -/
def versionText : Transcript := .ofLines ["conslisp 0.1.0"]

/-- The text that says how the program is used. -/
def usageText : Transcript :=
  .ofLines ["A small dynamically scoped Lisp", "", "Usage: conslisp [OPTIONS] [FILE]", "",
    "Arguments:",
    "  [FILE]  Source file evaluated line by line; an interactive prompt starts when omitted", "",
    "Options:",
    "      --comments       Treat `;` as the start of a comment running to end of line",
    "      --max-depth <N>  Evaluation depth at which an expression is abandoned [default: 1024]",
    "  -h, --help           Print help",
    "  -V, --version        Print version"]

/-- What is said of a file that cannot be read. -/
def badFile (name reason : String) : Outcome :=
  ⟨1, { errors := "Error: Bad file: " ++ name ++ "\n\nCaused by:\n    " ++ reason ++ "\n" }⟩

/-- What is said of arguments that make no sense. -/
def misused : Outcome :=
  ⟨2, { errors := "error: invalid arguments\n\nFor more information, try '--help'.\n" }⟩

/-- Evaluate a text in a new session, in one of the two ways there are. -/
def evaluated (settings : Settings) (transcribe : String → Evaluation Transcript) (text : String) :
    Outcome :=
  ⟨0, ((transcribe text).run (Session.start settings)).1⟩

/-- What the program does, given the content of each file or the reason why it has none. -/
def run (arguments : List String) (file : String → Except String String) (input : String) :
    Outcome :=
  match requestOf arguments with
  | .version => ⟨0, versionText⟩
  | .help => ⟨0, usageText⟩
  | .misuse => misused
  | .evaluate settings none => evaluated settings transcribePrompt input
  | .evaluate settings (some name) =>
    match file name with
    | .ok content => evaluated settings transcribeFile content
    | .error reason => badFile name reason

end DynLisp.CommandLine
