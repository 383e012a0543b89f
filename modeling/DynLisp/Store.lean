/-
  Store.lean --- the cells that pairs are.

  WHAT THIS FILE IS FOR.  A store holds every cell made so far, at the address
  that its pair carries, and counts the strings and symbols made.  Cells are
  added and overwritten and never removed.  Looking into a value that is not a
  pair gives the empty list.
-/
import DynLisp.Datum
import DynLisp.Value

set_option autoImplicit false

namespace DynLisp

/-- The two halves of a pair: an element, and the list after it or whatever ends it. -/
structure Cell where
  first : Value
  rest : Value
  deriving DecidableEq

/-- All cells, by address, and the next serial number of a string or symbol. -/
structure Store where
  cells : Array Cell := #[]
  serials : Nat := 0

namespace Store

/-- A store with nothing in it. -/
def empty : Store := {}

/-- How many cells there are. -/
def size (s : Store) : Nat := s.cells.size

/-- The cell at an address.  Where there is none, both halves are empty. -/
def cell (s : Store) (address : Nat) : Cell := s.cells[address]?.getD ⟨.nil, .nil⟩

/-! ## Looking -/

/-- The first half of a pair, and the empty list for anything else. -/
def first (s : Store) : Value → Value
  | .pair address => (s.cell address).first
  | _ => .nil

/-- The second half of a pair, and the empty list for anything else. -/
def rest (s : Store) : Value → Value
  | .pair address => (s.cell address).rest
  | _ => .nil

/-- The second element of a list. -/
def second (s : Store) (v : Value) : Value := s.first (s.rest v)

/-- The third element of a list. -/
def third (s : Store) (v : Value) : Value := s.first (s.rest (s.rest v))

/-- The name that a function's form starts with. -/
def lambdaName : String := "lambda"

/-- The value is a list that starts like a function: `(lambda parameters body)`. -/
def isLambda (s : Store) (v : Value) : Bool := (s.first v).isSymbolNamed lambdaName

/-- The value that a two-element list starting with `quote` quotes. -/
def quoted? (s : Store) (v : Value) : Option Value :=
  match s.rest v with
  | .pair address =>
    if (s.first v).isSymbolNamed Datum.quoteName && (s.cell address).rest = .nil then
      some (s.cell address).first
    else none
  | _ => none

/-! ## Making -/

/-- A new string. -/
def newString (text : String) : StateM Store Value :=
  modifyGet fun s => (.string ⟨s.serials, text⟩, { s with serials := s.serials + 1 })

/-- A new symbol. -/
def newSymbol (name : String) : StateM Store Value :=
  modifyGet fun s => (.symbol ⟨s.serials, name⟩, { s with serials := s.serials + 1 })

/-- A new pair. -/
def cons (first rest : Value) : StateM Store Value :=
  modifyGet fun s => (.pair s.size, { s with cells := s.cells.push ⟨first, rest⟩ })

/-! ## Changing -/

/-- The store with one cell changed.  Where there is no cell, nothing happens. -/
def update (s : Store) (address : Nat) (change : Cell → Cell) : Store :=
  { s with cells := s.cells.modify address change }

/-- The store with another first half of the cell at an address. -/
def setFirst (s : Store) (address : Nat) (v : Value) : Store :=
  s.update address fun cell => { cell with first := v }

/-- The store with another second half of the cell at an address. -/
def setRest (s : Store) (address : Nat) (v : Value) : Store :=
  s.update address fun cell => { cell with rest := v }

end Store

end DynLisp
