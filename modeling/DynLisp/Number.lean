/-
  Number.lean --- the two kinds of number, and when two numbers are equal.

  WHAT THIS FILE IS FOR.  A number is a 64-bit integer or a double.  The kind is
  part of the number: `1` and `1.0` are different.  Two doubles are equal if
  they are one and the same, where all that is not a number counts as one, or if
  both are zero.
-/
import DynLisp.Decimal.Fixed

set_option autoImplicit false

namespace DynLisp

/-- An integer or a double. -/
inductive Number where
  | integer (n : Int64)
  | double (x : Float)
  deriving DecidableEq

namespace Number

/-- The number as a double, rounded to the nearest one if it is a large integer. -/
def toFloat : Number → Float
  | integer n => Float.ofInt n.toInt
  | double x => x

/-- The double is zero, of either sign. -/
def isZero (x : Float) : Bool := Decimal.magnitude x = 0

/-- The two numbers are of one kind and equal. -/
def equal : Number → Number → Bool
  | integer m, integer n => m = n
  | double x, double y => decide (x = y) || (isZero x && isZero y)
  | _, _ => false

/-- A number as it is printed: an integer in decimal, a double with six places. -/
def written : Number → List Char
  | integer n =>
    if n.toInt < 0 then '-' :: Nat.toDigits 10 n.toInt.natAbs else Nat.toDigits 10 n.toInt.natAbs
  | double x => Decimal.writeFixed 6 x

end Number

end DynLisp
