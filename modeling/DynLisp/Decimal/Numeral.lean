/-
  Decimal/Numeral.lean --- the texts that are numbers.

  WHAT THIS FILE IS FOR.  Three grammars, all of ASCII characters: a whole number,
  a decimal with an optional fraction and exponent, and a double, which is a decimal
  or has a name in letters of either case.

      whole    ::=  sign? digit+
      decimal  ::=  sign? (digit+ ('.' digit*)? | '.' digit+) (('e' | 'E') sign? digit+)?
      double   ::=  decimal | sign? ('inf' | 'infinity' | 'nan')

  A number of 64 bits (`int64?`) and a double (`double?`) have to be the whole text.
  A decimal can also be taken off the front of a text (`afterDecimal?`).
-/
import DynLisp.Decimal.Binary

set_option autoImplicit false

namespace DynLisp.Decimal

/-- A leading sign taken off: whether it was a minus, and the text after it. -/
def splitSign : List Char → Bool × List Char
  | '-' :: rest => (true, rest)
  | '+' :: rest => (false, rest)
  | text => (false, text)

/-- The leading digits, and the text after them. -/
def splitDigits (text : List Char) : List Char × List Char :=
  (text.takeWhile Char.isDigit, text.dropWhile Char.isDigit)

/-- The number that one or more digits stand for, if the text is nothing else. -/
def natural? (text : List Char) : Option Nat :=
  if text ≠ [] ∧ text.all Char.isDigit then some (Nat.ofDigitChars 10 text 0) else none

/-- The whole number a text stands for. -/
def whole? (text : List Char) : Option Int :=
  let (negative, digits) := splitSign text
  (natural? digits).map fun n => if negative then -(n : Int) else n

/-- The 64-bit whole number a text stands for.  One that does not fit is none. -/
def int64? (text : List Char) : Option Int64 :=
  match whole? text with
  | some n => if -Int.pow 2 63 ≤ n ∧ n < Int.pow 2 63 then some (Int64.ofInt n) else none
  | none => none

/-- The exponent at the end of a decimal: nothing, or a mark and a whole number. -/
def exponent? : List Char → Option Int
  | [] => some 0
  | mark :: text => if mark = 'e' ∨ mark = 'E' then whole? text else none

/-- The digits before and after the point of a decimal, and the text after them.  One of the two
runs may be empty, and the point may be missing. -/
def significand? (text : List Char) : Option (List Char × List Char × List Char) :=
  let (before, rest) := splitDigits text
  match rest with
  | '.' :: afterPoint =>
    let (after, rest) := splitDigits afterPoint
    if before = [] ∧ after = [] then none else some (before, after, rest)
  | _ => if before = [] then none else some (before, [], rest)

/-- The sign and the size of the decimal a text stands for. -/
def decimal? (text : List Char) : Option (Bool × Scientific) :=
  let (negative, unsigned) := splitSign text
  match significand? unsigned with
  | none => none
  | some (before, after, rest) =>
    match exponent? rest with
    | none => none
    | some exponent =>
      some (negative, ⟨Nat.ofDigitChars 10 (before ++ after) 0, exponent - after.length⟩)

/-! ## The front of a text -/

/-- What comes after the exponent at the front of a text, if there is one.  A mark that no digits
follow spoils the text. -/
def afterExponent? : List Char → Option (List Char)
  | [] => some []
  | mark :: text =>
    if mark = 'e' ∨ mark = 'E' then
      let (digits, rest) := splitDigits (splitSign text).2
      if digits = [] then none else some rest
    else some (mark :: text)

/-- What comes after the decimal at the front of a text. -/
def afterDecimal? (text : List Char) : Option (List Char) :=
  match significand? (splitSign text).2 with
  | some (_, _, rest) => afterExponent? rest
  | none => none

/-! ## Doubles -/

/-- The magnitude of what is no number. -/
def notANumberMagnitude : Nat := infinityMagnitude + Nat.pow 2 51

/-- The magnitude that is called by a name, in letters of either case. -/
def named? (name : List Char) : Option Nat :=
  let name := name.map Char.toLower
  if name = ['i', 'n', 'f'] ∨ name = ['i', 'n', 'f', 'i', 'n', 'i', 't', 'y'] then
    some infinityMagnitude
  else if name = ['n', 'a', 'n'] then some notANumberMagnitude
  else none

/-- The double a text stands for: the one nearest to a decimal, or one that has a name. -/
def double? (text : List Char) : Option Float :=
  match decimal? text with
  | some (negative, x) => some (ofMagnitude negative x.toMagnitude)
  | none =>
    let (negative, name) := splitSign text
    (named? name).map (ofMagnitude negative)

end DynLisp.Decimal
