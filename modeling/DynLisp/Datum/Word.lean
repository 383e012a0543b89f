/-
  Datum/Word.lean --- what a bare word stands for.

  WHAT THIS FILE IS FOR.  A word is a 64-bit integer if its whole text is one,
  else a double if its whole text is a decimal, and else a symbol of that name.
  So an integer too large for 64 bits is a double, and `.` and `+` are symbols.

  THE GUARD.  Whatever reads doubles would take `inf` and `nan` as well.  These are
  to be symbols, so what it says counts only if the whole text is a decimal.
-/
import DynLisp.Datum
import DynLisp.Decimal.Numeral

set_option autoImplicit false

namespace DynLisp.Datum

/-- The datum that a word stands for, told by something that takes a decimal off the front of a
text and gives what comes after it. -/
def ofWordBy (after? : List Char → Option (List Char)) (word : String) : Datum :=
  match Decimal.int64? word.toList with
  | some n => number (.integer n)
  | none =>
    let isDecimal : Bool := after? word.toList = some []
    match Decimal.double? word.toList, isDecimal with
    | some x, true => number (.double x)
    | _, _ => symbol word

/-- The datum that a word stands for. -/
def ofWord (word : String) : Datum := ofWordBy Decimal.afterDecimal? word

end DynLisp.Datum
