/-
  Token/Stream.lean --- tokens with a place reached among them.

  WHAT THIS FILE IS FOR.  Forms are read one after another from a stream of
  tokens.  The stream remembers how far reading has come, and which of its
  tokens is a string literal that was never closed.
-/
import DynLisp.Token.Lexer

set_option autoImplicit false

namespace DynLisp.Token

/-- Tokens, and the number of them already taken. -/
structure Stream where
  tokens : List Token
  /-- the index of the string literal that ran to the end of the text, if one did -/
  unterminated : Option Nat := none
  position : Nat := 0
  position_le : position ≤ tokens.length := by simp

namespace Stream

/-- The tokens of a text. -/
def ofText (comments : Bool) (text : String) : Stream :=
  let found := lexemes comments text.toList
  { tokens := found.map (·.token), unterminated := found.findIdx? (!·.closed) }

/-- How many tokens there are, taken or not. -/
def length (s : Stream) : Nat := s.tokens.length

/-- The tokens not yet taken. -/
def remaining (s : Stream) : List Token := s.tokens.drop s.position

/-- Every token has been taken. -/
def isExhausted (s : Stream) : Bool := s.length ≤ s.position

/-- The next token, left in place. -/
def peek (s : Stream) : Option Token := s.tokens[s.position]?

/-- The stream at another place.  A place past the end is the end. -/
def seek (s : Stream) (place : Nat) : Stream :=
  { s with position := min place s.length, position_le := Nat.min_le_right _ _ }

/-- The next token, and the stream after it. -/
def advance (s : Stream) : Option Token × Stream :=
  match s.peek with
  | some token => (some token, s.seek (s.position + 1))
  | none => (none, s)

end Stream

end DynLisp.Token
