/-
  Session.lean --- everything that lasts from one form to the next.

  WHAT THIS FILE IS FOR.  A session owns its memory, the one symbol that stands
  for true, its settings, and the list of what has been reported.  While a form
  is evaluated it also remembers whether that form has been abandoned for going
  too deep: from then on nothing more is evaluated and nothing more reported.
-/
import DynLisp.Condition
import DynLisp.Memory

set_option autoImplicit false

namespace DynLisp

/-- What a session is started with. -/
structure Settings where
  /-- `;` starts a comment -/
  comments : Bool := false
  /-- the depth at which the evaluation of a form is abandoned -/
  maxDepth : Nat := 1024
  deriving DecidableEq, Repr

/-- The state of an interpreter. -/
structure Session where
  memory : Memory := {}
  /-- the symbol that every true result is -/
  truth : Value
  settings : Settings := {}
  /-- what has gone wrong so far, in order -/
  reported : List Condition := []
  /-- the form that is being evaluated went too deep -/
  abandoned : Bool := false

/-- A computation in a session. -/
abbrev Evaluation := StateM Session

namespace Session

/-- The name of the symbol for true. -/
def truthName : String := "t"

/-- A new session, in which the symbol for true is bound to itself. -/
def start (settings : Settings) : Session :=
  let (truth, memory) := (Memory.making (Store.newSymbol truthName)).run .empty
  let (_, memory) := (Memory.define truth truth).run memory
  { memory, truth, settings }

/-- The symbol for true, or the empty list. -/
def boolean (s : Session) (b : Bool) : Value := if b then s.truth else .nil

/-- What has been reported, and the session with nothing reported. -/
def takeReported (s : Session) : List Condition × Session := (s.reported, { s with reported := [] })

end Session

namespace Evaluation

/-- Do something with the memory of the session. -/
def inMemory {α : Type} (act : StateM Memory α) : Evaluation α :=
  modifyGet fun ⟨memory, truth, settings, reported, abandoned⟩ =>
    let (result, memory) := act.run memory
    (result, ⟨memory, truth, settings, reported, abandoned⟩)

/-- The store as it is. -/
def store : Evaluation Store := return (← get).memory.store

/-- Report a condition.  Nothing is reported of a form that has been abandoned. -/
def report (condition : Condition) : Evaluation Unit :=
  modify fun s =>
    if s.abandoned then s else { s with reported := s.reported ++ [condition] }

/-- Report a condition and give the empty list. -/
def failing (condition : Condition) : Evaluation Value := do
  report condition
  return .nil

/-- The symbol for true, or the empty list. -/
def boolean (b : Bool) : Evaluation Value := return (← get).boolean b

end Evaluation

end DynLisp
