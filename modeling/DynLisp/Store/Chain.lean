/-
  Store/Chain.lean --- lists as chains of cells.

  WHAT THIS FILE IS FOR.  A list is walked from cell to cell along the second
  halves, up to the first value that is not a pair.  A chain without a cycle
  visits no cell twice, so as many steps as the store has cells reach its end.
-/
import DynLisp.Store

set_option autoImplicit false

namespace DynLisp.Store

/-- The addresses of the cells on the chain from a value, at most so many of them. -/
def linksWithin (s : Store) : Nat → Value → List Nat
  | steps + 1, .pair address => address :: linksWithin s steps (s.cell address).rest
  | _, _ => []

/-- Where the chain from a value leads in at most so many steps. -/
def endWithin (s : Store) : Nat → Value → Value
  | steps + 1, .pair address => endWithin s steps (s.cell address).rest
  | _, v => v

/-- The addresses of the cells on the chain from a value. -/
def links (s : Store) (v : Value) : List Nat := s.linksWithin s.size v

/-- The elements of a list, at most so many of them. -/
def elementsWithin (s : Store) (steps : Nat) (v : Value) : List Value :=
  (s.linksWithin steps v).map fun address => (s.cell address).first

/-- The elements of a list. -/
def elements (s : Store) (v : Value) : List Value :=
  (s.links v).map fun address => (s.cell address).first

/-- What ends the chain from a value: the empty list if the chain is a list. -/
def tail (s : Store) (v : Value) : Value := s.endWithin s.size v

/-- How many elements a list has. -/
def chainLength (s : Store) (v : Value) : Nat := (s.links v).length

/-- The chain from a value ends in the empty list. -/
def isProperList (s : Store) (v : Value) : Bool := s.tail v = .nil

end DynLisp.Store
