/-
  CommandLine/Options.lean --- what the arguments of the program ask for.

  WHAT THIS FILE IS FOR.  Arguments are taken from left to right, and the first
  one that is wrong, or that asks for the version or for help, settles what is
  done.  Each option may be given once, and so may the file.

      --comments              `;` starts a comment
      --max-depth N           give up a form at that depth; also --max-depth=N
      -V, --version           say which version this is
      -h, --help              say how the program is used
      --                      what follows is no option
-/
import DynLisp.Decimal.Numeral
import DynLisp.Session

set_option autoImplicit false

namespace DynLisp.CommandLine

/-- What the program is to do. -/
inductive Request where
  /-- evaluate a file, or what is typed at the prompt if there is none -/
  | evaluate (settings : Settings) (file : Option String)
  | version
  | help
  /-- refuse arguments that make no sense -/
  | misuse
  deriving DecidableEq, Repr

/-- The options and the file found so far. -/
structure Options where
  comments : Bool := false
  maxDepth : Option Nat := none
  file : Option String := none

namespace Options

/-- What is to be done when all arguments have been taken. -/
def request (options : Options) : Request :=
  let settings : Settings := {}
  .evaluate ⟨options.comments, options.maxDepth.getD settings.maxDepth⟩ options.file

/-- The options with a file named, unless there is one or the name is empty. -/
def naming (options : Options) (name : String) : Option Options :=
  if name ≠ "" ∧ options.file = none then some { options with file := some name } else none

/-- The depth that a text gives: a number below `2 ^ 64`, perhaps with a plus before it. -/
def depth? (text : List Char) : Option Nat :=
  let digits :=
    match text with
    | '+' :: digits => digits
    | digits => digits
  match Decimal.natural? digits with
  | some n => if n < Nat.pow 2 64 then some n else none
  | none => none

/-- The options with a depth set, unless there is one or the text gives none. -/
def limiting (options : Options) (text : List Char) : Option Options :=
  match options.maxDepth, depth? text with
  | none, some n => some { options with maxDepth := some n }
  | _, _ => none

/-- An argument with two leading dashes, cut at its first equals sign: the name of an option, and
the value given with it. -/
def splitLong (text : List Char) : String × Option (List Char) :=
  let name := String.ofList (text.takeWhile (· ≠ '='))
  match text.dropWhile (· ≠ '=') with
  | [] => (name, none)
  | _ :: value => (name, some value)

/-- The name of a file for each argument. -/
def takeFiles (options : Options) : List String → Request
  | [] => options.request
  | name :: more =>
    match options.naming name with
    | some options => options.takeFiles more
    | none => .misuse

/-- Take the arguments that are left. -/
def take (options : Options) : List String → Request
  | [] => options.request
  | argument :: more =>
    match argument.toList with
    | ['-', '-'] => options.takeFiles more
    | '-' :: '-' :: long =>
      match splitLong long, more with
      | ("comments", none), more =>
        if options.comments then .misuse else take { options with comments := true } more
      | ("max-depth", some value), more =>
        match options.limiting value with
        | some options => take options more
        | none => .misuse
      | ("max-depth", none), value :: more =>
        match options.limiting value.toList with
        | some options => take options more
        | none => .misuse
      | ("version", none), _ => .version
      | ("help", none), _ => .help
      | _, _ => .misuse
    | '-' :: 'V' :: _ => .version
    | '-' :: 'h' :: _ => .help
    | '-' :: _ :: _ => .misuse
    | _ =>
      match options.naming argument with
      | some options => take options more
      | none => .misuse

end Options

/-- What the arguments of the program ask for. -/
def requestOf (arguments : List String) : Request := Options.take {} arguments

end DynLisp.CommandLine
