/-
  Text/Escape.lean --- text made visible between double quotes.

  WHAT THIS FILE IS FOR.  A description of a value shows a string so that a
  reader can tell every character in it: quotes, backslashes and the usual
  controls get their short escapes, and a character that would not show by
  itself is written by its code.
-/
import DynLisp.Text.Hidden

set_option autoImplicit false

namespace DynLisp.Text

/-- One character as it is shown inside quotes. -/
def escapeChar (c : Char) : List Char :=
  if c = '"' then ['\\', '"']
  else if c = '\\' then ['\\', '\\']
  else if c = '\n' then ['\\', 'n']
  else if c = '\t' then ['\\', 't']
  else if c = '\r' then ['\\', 'r']
  else if c = '\x00' then ['\\', '0']
  else if isHidden c then
    '\\' :: 'u' :: '\x7b' :: (Nat.toDigits 16 c.toNat ++ ['\x7d'])
  else [c]

/-- The text between double quotes, with escapes. -/
def quoted (text : List Char) : List Char := '"' :: (text.flatMap escapeChar ++ ['"'])

end DynLisp.Text
