/-
  Value.lean --- values as a session holds them.

  WHAT THIS FILE IS FOR.  A datum is a tree; a value is a handle.  Pairs are
  cells of a store and are known by their address, so two values can share a
  cell and both see it change.  Strings and symbols never change, but it can be
  told whether two of them are one and the same, so each carries the serial
  number of its making.  Numbers and the empty list have no identity.
-/
import DynLisp.Number

set_option autoImplicit false

namespace DynLisp

/-- A text made at one moment of a session. -/
structure Label where
  /-- which of the texts made so far it is -/
  serial : Nat
  text : String
  deriving DecidableEq, Repr

/-- A value of a session. -/
inductive Value where
  /-- the empty list, which is also the only false value -/
  | nil
  | number (n : Number)
  | string (label : Label)
  | symbol (label : Label)
  /-- the cell at an address -/
  | pair (address : Nat)
  deriving DecidableEq, Inhabited

namespace Value

/-- The value counts as true. -/
def isTruthy : Value → Bool
  | nil => false
  | _ => true

/-- The number that a value is. -/
def number? : Value → Option Number
  | number n => some n
  | _ => none

/-- The name of the symbol that a value is. -/
def symbolName? : Value → Option String
  | symbol label => some label.text
  | _ => none

/-- The value is a symbol of that name. -/
def isSymbolNamed (v : Value) (name : String) : Bool := v.symbolName? = some name

/-- The two values are equal without looking into cells: numbers by kind and value, strings and
symbols by their text, and no pair is equal to anything. -/
def equalAtoms : Value → Value → Bool
  | nil, nil => true
  | number m, number n => m.equal n
  | string a, string b => a.text = b.text
  | symbol a, symbol b => a.text = b.text
  | _, _ => false

/-- The two values are one and the same string, symbol or cell, or both the empty list. -/
def identical : Value → Value → Bool
  | nil, nil => true
  | string a, string b => a = b
  | symbol a, symbol b => a = b
  | pair a, pair b => a = b
  | _, _ => false

/-- The name of a value's kind. -/
def kindName : Value → String
  | nil => "nil"
  | number (.integer _) => "integer"
  | number (.double _) => "double"
  | string _ => "string"
  | symbol _ => "symbol"
  | pair _ => "pair"

end Value

end DynLisp
