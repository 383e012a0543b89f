/-
  Decimal/Fixed.lean --- a double with a set number of decimal places.

  WHAT THIS FILE IS FOR.  Doubles are printed with six places.  The exact binary
  value is rounded once, a half going to the even neighbour, and all digits
  before the point are written, however many there are.
-/
import DynLisp.Decimal.Binary

set_option autoImplicit false

namespace DynLisp.Decimal

/-- The decimal digits of a number with zeros in front, up to a width. -/
def paddedDigits (width n : Nat) : List Char :=
  let digits := Nat.toDigits 10 n
  List.replicate (width - digits.length) '0' ++ digits

/-- What is written for a magnitude that is no finite number. -/
def writeNonFinite (magnitude : Nat) : List Char :=
  if magnitude = infinityMagnitude then ['i', 'n', 'f'] else ['N', 'a', 'N']

/-- The sign that stands before a magnitude.  What is not a number has none. -/
def writeSign (negative : Bool) (magnitude : Nat) : List Char :=
  if negative && decide (magnitude ≤ infinityMagnitude) then ['-'] else []

/-- `n / 10 ^ places`, written with that many places after the point. -/
def writePlaces (places n : Nat) : List Char :=
  Nat.toDigits 10 (n / Nat.pow 10 places) ++ '.' :: paddedDigits places (n % Nat.pow 10 places)

/-- A double with `places` digits after the point. -/
def writeFixed (places : Nat) (x : Float) : List Char :=
  let m := magnitude x
  writeSign (isNegative x) m ++
    if m < infinityMagnitude then
      writePlaces places (roundHalfEven (units m * Nat.pow 10 places) unitsPerOne)
    else writeNonFinite m

end DynLisp.Decimal
