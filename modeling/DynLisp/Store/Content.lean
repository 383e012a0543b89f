/-
  Store/Content.lean --- values and the data that they hold.

  WHAT THIS FILE IS FOR.  `content` forgets all sharing and identity: it is the
  datum that a value shows when it is printed.  `load` makes a value of a datum,
  out of new cells, strings and symbols alone.  `equal` compares contents, and
  need not look further where two chains run into the same cell.

  As with chains, no path through a store without cycles is longer than the
  store has cells.
-/
import DynLisp.Store.Chain

set_option autoImplicit false

namespace DynLisp.Store

/-- The datum that a value shows, followed through so many cells on any one path. -/
def contentWithin (s : Store) : Nat → Value → Datum
  | _, .nil => .nil
  | _, .number n => .number n
  | _, .string label => .string label.text
  | _, .symbol label => .symbol label.text
  | 0, .pair _ => .nil
  | steps + 1, .pair address =>
    .cons (contentWithin s steps (s.cell address).first)
      (contentWithin s steps (s.cell address).rest)

/-- The datum that a value shows. -/
def content (s : Store) (v : Value) : Datum := s.contentWithin s.size v

/-- A value that shows a datum, made anew. -/
def load : Datum → StateM Store Value
  | .nil => pure .nil
  | .number n => pure (.number n)
  | .string text => newString text
  | .symbol name => newSymbol name
  | .cons first rest => do
    let f ← load first
    let r ← load rest
    cons f r

/-- The two values show equal data, followed through so many cells on any one path. -/
def equalWithin (s : Store) : Nat → Value → Value → Bool
  | steps + 1, .pair a, .pair b =>
    a = b ||
      (equalWithin s steps (s.cell a).first (s.cell b).first &&
        equalWithin s steps (s.cell a).rest (s.cell b).rest)
  | _, v, w => v.equalAtoms w

/-- The two values show equal data. -/
def equal (s : Store) (v w : Value) : Bool := s.equalWithin s.size v w

end DynLisp.Store
