/-
  Environment.lean --- who is bound to what.

  WHAT THIS FILE IS FOR.  Scoping is dynamic: a name means what the innermost
  call still going on has bound it to, and if no call binds it, what the global
  frame does.  A frame is two parallel lists in the store, one of symbols and
  one of values, so that a call's frame is nothing but the parameter list of the
  function and the list of its arguments.  Where one list is longer, the rest of
  it binds nothing.
-/
import DynLisp.Store.Chain

set_option autoImplicit false

namespace DynLisp

/-- One scope: a list of symbols and the list of their values. -/
structure Frame where
  symbols : Value := .nil
  values : Value := .nil
  deriving DecidableEq

namespace Frame

/-- The symbols of a frame, each with the address of the cell that holds its value. -/
def slots (frame : Frame) (s : Store) : List (Value × Nat) :=
  (s.elements frame.symbols).zip (s.links frame.values)

/-- The cell that holds the value of the first symbol equal to a key. -/
def slot? (frame : Frame) (s : Store) (key : Value) : Option Nat :=
  ((frame.slots s).find? fun slot => slot.1.equalAtoms key).map (·.2)

/-- What a frame binds a key to. -/
def lookup (frame : Frame) (s : Store) (key : Value) : Option Value :=
  (frame.slot? s key).map fun address => (s.cell address).first

/-- The symbols of a frame with their values, in order. -/
def bindings (frame : Frame) (s : Store) : List (Value × Value) :=
  (s.elements frame.symbols).zip (s.elements frame.values)

end Frame

/-- The global frame, and the frames of the calls going on, innermost first. -/
structure Environment where
  globals : Frame := {}
  calls : List Frame := []
  deriving DecidableEq

namespace Environment

/-- An environment that binds nothing. -/
def empty : Environment := {}

/-- How many frames there are, the global one included. -/
def depth (env : Environment) : Nat := env.calls.length + 1

/-- What a key is bound to: by the innermost call that binds it, else globally. -/
def lookup (env : Environment) (s : Store) (key : Value) : Option Value :=
  (env.calls ++ [env.globals]).findSome? fun frame => frame.lookup s key

/-- The environment inside a call that binds some parameters to some arguments. -/
def push (env : Environment) (parameters arguments : Value) : Environment :=
  { env with calls := ⟨parameters, arguments⟩ :: env.calls }

/-- The environment outside the innermost call.  The global frame stays. -/
def pop (env : Environment) : Environment := { env with calls := env.calls.tail }

end Environment

end DynLisp
