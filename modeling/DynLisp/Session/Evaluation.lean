/-
  Session/Evaluation.lean --- what expressions mean.

  WHAT THIS FILE IS FOR.  The empty list, numbers and strings stand for
  themselves, a symbol for what it is bound to, and a pair for a call.  Here the
  evaluation of a call is written with the evaluation of its parts as an
  argument, so that the depth of evaluation is bounded in one place alone: in
  `evaluateWithin`, which recurses on how much deeper it may still go.

  FAULTS.  Nothing stops an evaluation.  A fault is reported and has the empty
  list for its value, and so the frames that calls push are always popped again.
  This holds of going too deep as well, but from there on every part evaluates
  to the empty list at once.  What encloses those parts still runs to its end.
-/
import DynLisp.Datum.Printer
import DynLisp.Operator
import DynLisp.Session
import DynLisp.Store.Builder
import DynLisp.Store.Content

set_option autoImplicit false

namespace DynLisp.Evaluation

/-! ## Operators -/

/-- The values of the first two arguments, in order.  One that is missing is the empty list. -/
def operands (evaluate : Value → Evaluation Value) (arguments : Value) :
    Evaluation (Value × Value) := do
  let a ← evaluate ((← store).first arguments)
  let b ← evaluate ((← store).second arguments)
  return (a, b)

/-- The result of the first clause whose test is true, else the empty list. -/
def firstClause (evaluate : Value → Evaluation Value) : List Value → Evaluation Value
  | [] => return .nil
  | clause :: more => do
    if (← evaluate ((← store).first clause)).isTruthy then
      evaluate ((← store).second clause)
    else firstClause evaluate more

/-- What a special form gives for its arguments.  `whole` is the form itself. -/
def special (evaluate : Value → Evaluation Value) (form : SpecialForm) (whole arguments : Value) :
    Evaluation Value := do
  match form with
  | .quote => return (← store).first arguments
  | .lambda => return whole
  | .define =>
    let v ← evaluate ((← store).second arguments)
    inMemory (Memory.define ((← store).first arguments) v)
  | .not =>
    let v ← evaluate ((← store).first arguments)
    boolean (!v.isTruthy)
  | .and =>
    if (← evaluate ((← store).first arguments)).isTruthy then
      evaluate ((← store).second arguments)
    else return .nil
  | .or =>
    if (← evaluate ((← store).first arguments)).isTruthy then return (← get).truth
    else evaluate ((← store).second arguments)
  | .ifElse =>
    if (← evaluate ((← store).first arguments)).isTruthy then
      evaluate ((← store).second arguments)
    else evaluate ((← store).third arguments)
  | .cond => firstClause evaluate ((← store).elements arguments)

/-- What an operator gives for its arguments. -/
def operate (evaluate : Value → Evaluation Value) (name : String) (operator : Operator)
    (whole arguments : Value) : Evaluation Value := do
  match operator with
  | .special form => special evaluate form whole arguments
  | .arithmetic operation =>
    let (a, b) ← operands evaluate arguments
    match operation.onValues a b with
    | .ok n => return .number n
    | .error fault => failing (.arithmetic name fault)
  | .comparison relation =>
    let (a, b) ← operands evaluate arguments
    match relation.onValues a b with
    | .ok b => boolean b
    | .error fault => failing (.arithmetic name fault)
  | .equality =>
    let (a, b) ← operands evaluate arguments
    boolean (a.equalAtoms b)

/-! ## Functions -/

/-- The value of a function's body, with its parameters bound to the values of the arguments.
The arguments are evaluated where the call stands, in order. -/
def apply (evaluate : Value → Evaluation Value) (function arguments : Value) :
    Evaluation Value := do
  let parameters := (← store).second function
  let body := (← store).third function
  let values ← ((← store).elements arguments).mapM evaluate
  let list ← inMemory (Memory.making (Store.list values))
  inMemory (modify fun m => m.push parameters list)
  let result ← evaluate body
  inMemory (modify fun m => m.pop)
  return result

/-! ## Calls -/

/-- The value of a call.  Its head is a built-in name, a name bound to a function, or a function
written out in place. -/
def call (evaluate : Value → Evaluation Value) (whole : Value) : Evaluation Value := do
  let head := (← store).first whole
  let arguments := (← store).rest whole
  match head with
  | .symbol label =>
    match Operator.find? label.text with
    | some operator => operate evaluate label.text operator whole arguments
    | none =>
      match (← get).memory.lookup head with
      | some bound =>
        if (← store).isLambda bound then apply evaluate bound arguments
        else failing (.unknownFunction label.text)
      | none => failing (.unknownFunction label.text)
  | .pair _ =>
    if (← store).isLambda head then apply evaluate head arguments
    else failing (.invalidCall ((← store).content whole).render)
  | _ => failing (.invalidCall ((← store).content whole).render)

/-- The value of an expression, with the evaluation of its parts as an argument. -/
def step (evaluate : Value → Evaluation Value) (expression : Value) : Evaluation Value := do
  match expression with
  | .nil | .number _ | .string _ => return expression
  | .symbol _ => return ((← get).memory.lookup expression).getD .nil
  | .pair _ => call evaluate expression

/-! ## Depth -/

/-- Report that the depth is exceeded, and abandon the form. -/
def abandon : Evaluation Value := do
  report (.depthExceeded (← get).settings.maxDepth)
  modify fun s => { s with abandoned := true }
  return .nil

/-- The value of an expression whose evaluation may go so much deeper.  There is none left to find
once the form is abandoned. -/
def evaluateWithin : (room : Nat) → Value → Evaluation Value
  | 0, _ => abandon
  | room + 1, expression => do
    if (← get).abandoned then return .nil
    else step (evaluateWithin room) expression

/-- The value of an expression. -/
def evaluate (expression : Value) : Evaluation Value := do
  modify fun s => { s with abandoned := false }
  let result ← evaluateWithin (← get).settings.maxDepth expression
  modify fun s => { s with abandoned := false }
  return result

end DynLisp.Evaluation
