/-
  CommandLine/Prompt.lean --- lines typed one after another.

  WHAT THIS FILE IS FOR.  Each line is trimmed.  One that is empty then is passed
  over, one that is a command is obeyed, and every other is evaluated.  The session
  ends with a command or with the last line.
-/
import DynLisp.CommandLine.Transcript

set_option autoImplicit false

namespace DynLisp.CommandLine

/-- What can be asked of the prompt itself. -/
inductive Command where
  | help
  | bindings
  | leave
  deriving DecidableEq, Repr

/-- The command that a line is. -/
def Command.find? (line : String) : Option Command :=
  [(":help", help), (":env", bindings), (":quit", leave), (":exit", leave)].lookup line

/-- What the prompt starts with. -/
def banner : Transcript :=
  .ofLines ["conslisp: enter S-expressions like (+ 1 2)",
    "Type :help for commands, Ctrl+D to exit.", ""]

/-- What the prompt ends with. -/
def farewell : Transcript := .ofLines ["Goodbye!"]

/-- What there is to know about the prompt and its language. -/
def helpText : Transcript :=
  .ofLines ["Commands:",
    "  :help      - Show this help message",
    "  :env       - Show global bindings",
    "  :quit      - Exit the interpreter",
    "  :exit      - Exit the interpreter",
    "  Ctrl+D     - Exit the interpreter",
    "",
    "Special forms: quote ('x), define, set, set!, lambda, not, and, or, if, cond",
    "Arithmetic:    + - * / %",
    "Comparison:    < > <= >= =",
    "Nil is () and the only false value; t is true.",
    "",
    "Examples:",
    "  (define sq (lambda (n) (* n n)))",
    "  (sq 6)",
    "  (cond ((< 1 0) 'neg) (t 'pos))",
    ""]

/-- A text with spaces behind it, up to a width in characters. -/
def padded (width : Nat) (text : List Char) : List Char :=
  text ++ List.replicate (width - text.length) ' '

/-- A binding as it is listed. -/
def bindingLine (store : Store) (binding : Value × Value) : String :=
  String.ofList ([' ', ' '] ++ padded 15 (store.content binding.1).written ++
    ' ' :: (store.content binding.2).written)

/-- The global bindings, listed. -/
def bindingsListed (memory : Memory) : Transcript :=
  let bindings := memory.globalBindings
  .ofLines (s!"Global bindings ({bindings.length} total):" ::
    bindings.map (bindingLine memory.store))

/-- What the prompt answers to a line, and whether it goes on. -/
def respond (line : List Char) : Evaluation (Transcript × Bool) := do
  let line := String.ofList (Text.trim line)
  if line = "" then return ({}, true)
  match Command.find? line with
  | some .help => return (helpText, true)
  | some .bindings => return (bindingsListed (← get).memory, true)
  | some .leave => return (farewell, false)
  | none => return (← transcribeLine line, true)

/-- What the prompt answers to all lines, up to the one that ends it. -/
def respondAll : List (List Char) → Evaluation Transcript
  | [] => return farewell
  | line :: more => do
    let (answer, goesOn) ← respond line
    if goesOn then return answer ++ (← respondAll more) else return answer

/-- What the prompt writes when it is fed a text. -/
def transcribePrompt (input : String) : Evaluation Transcript :=
  (banner ++ ·) <$> respondAll (Text.lines input.toList)

end DynLisp.CommandLine
