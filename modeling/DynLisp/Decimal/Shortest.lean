/-
  Decimal/Shortest.lean --- the fewest digits that read back.

  WHAT THIS FILE IS FOR.  A description of a double shows as few significant
  digits as still identify it.  For one digit, two digits and so on, the two
  neighbours of the exact value on that decimal grid are read back; the first
  grid with a hit wins, and of two hits the nearer, an exact tie going up.
-/
import DynLisp.Decimal.Fixed

set_option autoImplicit false

namespace DynLisp.Decimal

/-- The least `k` for which a positive number of units is below `10 ^ k`.  No unit count is so
small that its leading digit would be lost at the 400th place. -/
def decimalScale (units : Nat) : Int :=
  ((Nat.toDigits 10 (units * Nat.pow 10 400 / unitsPerOne)).length : Int) - 400

/-- The nearer neighbour, on the grid of multiples of `10 ^ exponent`, that reads back as the
magnitude, if one does. -/
def neighbourReadingBack? (magnitude : Nat) (exponent : Int) : Option Scientific :=
  let num := units magnitude * Nat.pow 10 (-exponent).toNat
  let den := unitsPerOne * Nat.pow 10 exponent.toNat
  let below : Scientific := ⟨num / den, exponent⟩
  let above : Scientific := ⟨num / den + 1, exponent⟩
  let readsBack (x : Scientific) : Bool := x.toMagnitude = magnitude
  if readsBack below && (!readsBack above || decide (2 * (num % den) < den)) then some below
  else if readsBack above then some above
  else none

/-- The shortest decimal that reads back as a finite magnitude.  Seventeen digits always do; the
exact value stands last so that the answer is right whatever the search finds. -/
def shortest (magnitude : Nat) : Scientific :=
  let scale := decimalScale (units magnitude)
  match (List.range 17).findSome? fun (n : Nat) => neighbourReadingBack? magnitude (scale - 1 - n) with
  | some found => found
  | none => ⟨units magnitude * Nat.pow 5 1074, -1074⟩

/-- A decimal without an exponent, and without a point if it is whole. -/
def writePositional (x : Scientific) : List Char :=
  let digits := Nat.toDigits 10 x.digits
  if 0 ≤ x.exponent then digits ++ List.replicate x.exponent.toNat '0'
  else
    let places := (-x.exponent).toNat
    let padded := paddedDigits (places + 1) x.digits
    let fraction := ((padded.drop (padded.length - places)).reverse.dropWhile (· = '0')).reverse
    padded.take (padded.length - places) ++
      if fraction.isEmpty then [] else '.' :: fraction

/-- A double in the fewest digits that identify it, written out without an exponent. -/
def writeShortest (x : Float) : List Char :=
  let m := magnitude x
  writeSign (isNegative x) m ++
    if m = 0 then ['0']
    else if m < infinityMagnitude then writePositional (shortest m)
    else writeNonFinite m

end DynLisp.Decimal
