/-
  Datum/Printer.lean --- data as text, for a program's reader and for its author.

  WHAT THIS FILE IS FOR.  `written` is the text that reads back: lists between
  parentheses with one space between elements, `'x` for a form that quotes `x`,
  and a dot before an end that is not the empty list.  Strings stand between
  double quotes as they are.  `description` is for looking at a value closely:
  it names the kind, and shows every character of a string and every digit of a
  double.
-/
import DynLisp.Datum
import DynLisp.Decimal.Shortest
import DynLisp.Text.Escape

set_option autoImplicit false

namespace DynLisp.Datum

mutual

/-- A datum as it is printed. -/
def written : Datum → List Char
  | nil => ['(', ')']
  | number n => n.written
  | string text => '"' :: (text.toList ++ ['"'])
  | symbol name => name.toList
  | cons (symbol name) (cons datum nil) =>
    if name = quoteName then '\'' :: datum.written
    else '(' :: ((symbol name).written ++ (cons datum nil).writtenEnd)
  | cons first rest => '(' :: (first.written ++ rest.writtenEnd)

/-- The part of a list's text after its first element. -/
def writtenEnd : Datum → List Char
  | nil => [')']
  | cons first rest => ' ' :: (first.written ++ rest.writtenEnd)
  | number n => [' ', '.', ' '] ++ n.written ++ [')']
  | string text => [' ', '.', ' '] ++ '"' :: (text.toList ++ ['"']) ++ [')']
  | symbol name => [' ', '.', ' '] ++ name.toList ++ [')']

end

/-- A datum as it is printed. -/
def render (datum : Datum) : String := String.ofList datum.written

/-- A datum with its kind named and nothing in it hidden. -/
def description : Datum → List Char
  | nil => "Nil".toList
  | number (.integer n) => "Integer(".toList ++ (Number.integer n).written ++ [')']
  | number (.double x) => "Double(".toList ++ Decimal.writeShortest x ++ [')']
  | string text => "String(".toList ++ Text.quoted text.toList ++ [')']
  | symbol name => "Symbol(".toList ++ name.toList ++ [')']
  | cons first rest => "Pair(".toList ++ (cons first rest).written ++ [')']

/-- A cell with both its halves described. -/
def describePair (first rest : Datum) : List Char :=
  "Pair(".toList ++ first.description ++ " . ".toList ++ rest.description ++ [')']

end DynLisp.Datum
