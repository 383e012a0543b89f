/-
  Operator.lean --- the names that are built in.

  WHAT THIS FILE IS FOR.  A list that starts with one of these names is never a
  call of a function, even where the name is bound to one.  Special forms decide
  for themselves which of their arguments are evaluated; all other operators
  take the values of their first two.
-/
import DynLisp.Number.Arithmetic
import DynLisp.Value

set_option autoImplicit false

namespace DynLisp

/-- The forms that get their arguments unevaluated. -/
inductive SpecialForm where
  | quote
  /-- bind a name in the global frame -/
  | define
  | lambda
  | not
  | and
  | or
  | ifElse
  | cond
  deriving DecidableEq, Repr

/-- What a built-in name stands for. -/
inductive Operator where
  | special (form : SpecialForm)
  | arithmetic (operation : Arithmetic)
  | comparison (relation : Comparison)
  | equality
  deriving DecidableEq, Repr

namespace Operator

/-- All built-in names, in order.  Three of them bind a name, and do the same. -/
def table : List (String × Operator) :=
  [("quote", .special .quote), ("define", .special .define), ("set", .special .define),
    ("set!", .special .define), ("lambda", .special .lambda), ("not", .special .not),
    ("and", .special .and), ("or", .special .or), ("if", .special .ifElse),
    ("cond", .special .cond), ("+", .arithmetic .add), ("-", .arithmetic .subtract),
    ("*", .arithmetic .multiply), ("/", .arithmetic .divide), ("%", .arithmetic .remainder),
    ("<", .comparison .less), (">", .comparison .greater), ("<=", .comparison .lessOrEqual),
    (">=", .comparison .greaterOrEqual), ("=", .equality)]

/-- What a name stands for, if it is built in. -/
def find? (name : String) : Option Operator := table.lookup name

end Operator

/-! ## On values -/

/-- What an arithmetic operation gives on two values, which both have to be numbers. -/
def Arithmetic.onValues (operation : Arithmetic) (a b : Value) : Except ArithmeticFault Number :=
  match a.number?, b.number? with
  | some m, some n => operation.apply m n
  | _, _ => .error .notANumber

/-- Whether a comparison holds of two values, which both have to be numbers. -/
def Comparison.onValues (relation : Comparison) (a b : Value) : Except ArithmeticFault Bool :=
  match a.number?, b.number? with
  | some m, some n => .ok (relation.holds m n)
  | _, _ => .error .notANumber

end DynLisp
