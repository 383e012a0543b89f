/-
  Condition.lean --- what is reported while a program is read and evaluated.

  WHAT THIS FILE IS FOR.  Nothing that goes wrong ends a session.  It is reported
  as one of these conditions, and the form in question has the empty list for
  its value.
-/
import DynLisp.Form
import DynLisp.Number.Arithmetic

set_option autoImplicit false

namespace DynLisp

/-- Something that went wrong. -/
inductive Condition where
  /-- the text of a form is faulty -/
  | unreadable (error : ReadError)
  /-- an arithmetic operator was given something it has no result for -/
  | arithmetic (operator : String) (fault : ArithmeticFault)
  /-- a name in the place of a function is neither an operator nor bound to a function -/
  | unknownFunction (name : String)
  /-- something in the place of a function that can never be one; the printed form -/
  | invalidCall (form : String)
  /-- evaluation went deeper than the limit allows -/
  | depthExceeded (limit : Nat)
  deriving DecidableEq, Repr

namespace Condition

/-- The condition in words. -/
def message : Condition → String
  | unreadable error =>
    match error.found with
    | some token =>
      s!"Parse error: {error.text} (found '{token.render}' at token {error.place})"
    | none => s!"Parse error: {error.text}"
  | arithmetic operator fault => s!"Arithmetic error in '{operator}': {fault.message}"
  | unknownFunction name => s!"Unknown function: {name}"
  | invalidCall form => s!"Invalid function call: {form}"
  | depthExceeded limit => s!"Evaluation depth limit exceeded (max: {limit})"

end Condition

end DynLisp
