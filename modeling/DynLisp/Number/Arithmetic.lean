/-
  Number/Arithmetic.lean --- the five operations and the four comparisons.

  WHAT THIS FILE IS FOR.  Two integers give an integer, and what does not fit in
  64 bits wraps around.  If either number is a double, both are taken as doubles.
  Division truncates on integers and refuses a zero divisor of either kind;
  remainders exist for integers only.  Comparisons always go through doubles.
-/
import DynLisp.Number

set_option autoImplicit false

namespace DynLisp

/-- Why an arithmetic operation has no result. -/
inductive ArithmeticFault where
  /-- an operand is not a number, or not of a kind that the operation takes -/
  | notANumber
  /-- the divisor is zero -/
  | divisionByZero
  deriving DecidableEq, Repr

namespace ArithmeticFault

/-- The fault in words. -/
def message : ArithmeticFault → String
  | notANumber => "not a number"
  | divisionByZero => "division by zero"

end ArithmeticFault

/-- The operations that give a number. -/
inductive Arithmetic where
  | add
  | subtract
  | multiply
  | divide
  | remainder
  deriving DecidableEq, Repr

/-- The operations that give a truth value. -/
inductive Comparison where
  | less
  | greater
  | lessOrEqual
  | greaterOrEqual
  deriving DecidableEq, Repr

namespace Number

/-- An operation on two integers, or its counterpart on doubles if either number is one. -/
def promote (onIntegers : Int64 → Int64 → Int64) (onDoubles : Float → Float → Float) :
    Number → Number → Number
  | integer m, integer n => integer (onIntegers m n)
  | a, b => double (onDoubles a.toFloat b.toFloat)

/-- Division, truncating toward zero on integers. -/
def divide : Number → Number → Except ArithmeticFault Number
  | integer m, integer n => if n = 0 then .error .divisionByZero else .ok (integer (m / n))
  | a, b =>
    if isZero b.toFloat then .error .divisionByZero else .ok (double (a.toFloat / b.toFloat))

/-- The remainder of truncating division, with the sign of the dividend. -/
def remainder : Number → Number → Except ArithmeticFault Number
  | integer m, integer n => if n = 0 then .error .divisionByZero else .ok (integer (m % n))
  | _, _ => .error .notANumber

end Number

/-- What an arithmetic operation gives on two numbers. -/
def Arithmetic.apply : Arithmetic → Number → Number → Except ArithmeticFault Number
  | add, a, b => .ok (Number.promote (· + ·) (· + ·) a b)
  | subtract, a, b => .ok (Number.promote (· - ·) (· - ·) a b)
  | multiply, a, b => .ok (Number.promote (· * ·) (· * ·) a b)
  | divide, a, b => a.divide b
  | remainder, a, b => a.remainder b

/-- Whether a comparison holds of two numbers. -/
def Comparison.holds : Comparison → Number → Number → Bool
  | less, a, b => a.toFloat < b.toFloat
  | greater, a, b => b.toFloat < a.toFloat
  | lessOrEqual, a, b => a.toFloat ≤ b.toFloat
  | greaterOrEqual, a, b => b.toFloat ≤ a.toFloat

end DynLisp
