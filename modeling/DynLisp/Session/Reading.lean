/-
  Session/Reading.lean --- texts evaluated form by form.

  WHAT THIS FILE IS FOR.  A session reads a form, reports what is wrong with its
  text, and evaluates it before the next form is looked at.  A string literal
  that was never closed is reported, and the form that holds it is evaluated
  nevertheless; a form that could not be read has the empty list for its value.
-/
import DynLisp.Session.Evaluation

set_option autoImplicit false

namespace DynLisp.Evaluation

/-- The value of a form that has been read. -/
def evaluateForm (form : Form) : Evaluation Value := do
  form.errors.forM fun error => report (.unreadable error)
  match form.outcome with
  | .ok datum => evaluate (← inMemory (Memory.making (Store.load datum)))
  | .error _ => return .nil

/-- The value of the next form of a stream, and the stream after it.  At the end of the stream
there is none. -/
def evaluateNext (stream : Token.Stream) : Evaluation (Option Value × Token.Stream) := do
  if stream.isExhausted then return (none, stream)
  else
    let form := stream.read
    let result ← evaluateForm form
    return (some result, form.after)

/-- The tokens of a text, as the session's settings have it. -/
def streamOf (text : String) : Evaluation Token.Stream :=
  return .ofText (← get).settings.comments text

/-- The values of all forms of a text. -/
def evaluateText (text : String) : Evaluation (List Value) := do
  (← streamOf text).readAll.mapM evaluateForm

/-- The value of the first form of a text.  A text without one has the empty list. -/
def evaluateFirst (text : String) : Evaluation Value := do
  let (result, _) ← evaluateNext (← streamOf text)
  return result.getD .nil

end DynLisp.Evaluation
