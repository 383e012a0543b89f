/-
  Store/Builder.lean --- lists built from their front.

  WHAT THIS FILE IS FOR.  A builder grows a list at its end: each element gets a
  new cell, and the cell that was last is made to lead to it.  So a list of any
  length is built with one step per element, in order.
-/
import DynLisp.Store

set_option autoImplicit false

namespace DynLisp.Store

/-- A list under construction. -/
inductive Builder where
  | empty
  /-- the addresses of the first and of the last cell so far -/
  | chain (head last : Nat)
  deriving DecidableEq, Repr

namespace Builder

/-- Nothing has been added yet. -/
def isEmpty : Builder → Bool
  | empty => true
  | chain _ _ => false

/-- The list built so far. -/
def finish : Builder → Value
  | empty => .nil
  | chain head _ => .pair head

/-- Add an element at the end. -/
def push (builder : Builder) (v : Value) : StateM Store Builder :=
  modifyGet fun s =>
    let grown := { s with cells := s.cells.push ⟨v, .nil⟩ }
    match builder with
    | empty => (chain s.size s.size, grown)
    | chain head last => (chain head s.size, grown.setRest last (.pair s.size))

end Builder

/-- A new list of some elements. -/
def list (items : List Value) : StateM Store Value := do
  let builder ← items.foldlM Builder.push .empty
  return builder.finish

end DynLisp.Store
