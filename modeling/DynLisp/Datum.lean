/-
  Datum.lean --- symbolic expressions as plain trees.

  WHAT THIS FILE IS FOR.  A datum is what a text stands for and what is printed:
  a tree without sharing, without identity, and without cells that change.
  Reading gives a datum, and printing starts from one.
-/
import DynLisp.Number

set_option autoImplicit false

namespace DynLisp

/-- A symbolic expression. -/
inductive Datum where
  /-- the empty list -/
  | nil
  | number (n : Number)
  | string (text : String)
  | symbol (name : String)
  /-- a cell of a list: the element, and the list after it or whatever ends it -/
  | cons (first rest : Datum)
  deriving DecidableEq

namespace Datum

/-- The list of some data. -/
def ofList : List Datum → Datum
  | [] => nil
  | item :: more => cons item (ofList more)

/-- The name of the form that stands for its argument unevaluated. -/
def quoteName : String := "quote"

/-- The form that stands for a datum unevaluated. -/
def quoted (datum : Datum) : Datum := ofList [symbol quoteName, datum]

end Datum

end DynLisp
