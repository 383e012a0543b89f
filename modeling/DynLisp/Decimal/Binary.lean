/-
  Decimal/Binary.lean --- doubles as exact natural numbers.

  WHAT THIS FILE IS FOR.  Every finite double is a whole multiple of
  `2 ^ -1074`, up to its sign.  So a decimal can be compared with a double, and
  rounded to one, in natural numbers alone: no step of reading or writing a
  number goes through floating point.

  THE VIEW.  `magnitude` is the bit pattern below the sign.  It grows with the
  value: `units` says which multiple of `2 ^ -1074` a finite magnitude stands
  for, and `nearest` goes back from an arbitrary non-negative fraction.
-/
set_option autoImplicit false

namespace DynLisp.Decimal

/-! ## Rounding -/

/-- `num / den` rounded to the nearest whole number, a half to the even neighbour. -/
def roundHalfEven (num den : Nat) : Nat :=
  let quotient := num / den
  let remainder := num % den
  if 2 * remainder < den then quotient
  else if den < 2 * remainder then quotient + 1
  else quotient + quotient % 2

/-! ## Bit patterns -/

/-- How many units make one: a unit is the least positive double. -/
def unitsPerOne : Nat := Nat.pow 2 1074

/-- The magnitude of both infinities.  Those above it are not numbers. -/
def infinityMagnitude : Nat := 2047 * Nat.pow 2 52

/-- The bit pattern of a double without its sign. -/
def magnitude (x : Float) : Nat := x.toBits.toNat % Nat.pow 2 63

/-- The sign bit of a double is set. -/
def isNegative (x : Float) : Bool := Nat.pow 2 63 ≤ x.toBits.toNat

/-- The double with a sign and a magnitude. -/
def ofMagnitude (negative : Bool) (magnitude : Nat) : Float :=
  Float.ofBits (UInt64.ofNat (if negative then Nat.pow 2 63 + magnitude else magnitude))

/-- How many units a finite magnitude stands for.  The low 52 bits are a fraction, and the bits
above say how often it is doubled. -/
def units (magnitude : Nat) : Nat :=
  let exponent := magnitude / Nat.pow 2 52
  let fraction := magnitude % Nat.pow 2 52
  if exponent = 0 then fraction else (Nat.pow 2 52 + fraction) * Nat.pow 2 (exponent - 1)

/-- The magnitude nearest to `num / den`, of two equally near ones the even one.  What lies half a
step or more beyond the greatest finite double becomes infinity. -/
def nearest (num den : Nat) : Nat :=
  let scaled := num * unitsPerOne
  let doublings := (scaled / den).log2 - 52
  min (doublings * Nat.pow 2 52 + roundHalfEven scaled (den * Nat.pow 2 doublings))
    infinityMagnitude

/-! ## Decimals -/

/-- The non-negative decimal `digits * 10 ^ exponent`. -/
structure Scientific where
  digits : Nat
  exponent : Int
  deriving DecidableEq, Repr

namespace Scientific

/-- The magnitude nearest to a decimal.  Decimals of `10 ^ 310` and more are infinite and those
below `10 ^ -330` vanish, so no power of ten larger than the digits ask for is computed. -/
def toMagnitude (x : Scientific) : Nat :=
  let places : Int := (Nat.toDigits 10 x.digits).length
  if x.digits = 0 then 0
  else if 310 < x.exponent + places then infinityMagnitude
  else if x.exponent + places < -330 then 0
  else nearest (x.digits * Nat.pow 10 x.exponent.toNat) (Nat.pow 10 (-x.exponent).toNat)

end Scientific

end DynLisp.Decimal
