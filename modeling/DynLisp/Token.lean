/-
  Token.lean --- the words and marks that a text is made of.
-/
set_option autoImplicit false

namespace DynLisp

/-- A mark, a string literal or a bare word. -/
inductive Token where
  /-- `(` -/
  | opening
  /-- `)` -/
  | closing
  /-- `'` -/
  | quote
  /-- a string literal, without the quotes around it -/
  | string (content : String)
  /-- a word: anything that is none of the others -/
  | word (text : String)
  deriving DecidableEq, Repr

namespace Token

/-- A token as it stands in a text.  A string literal has both its quotes. -/
def render : Token → String
  | opening => "("
  | closing => ")"
  | quote => "'"
  | string content => String.ofList ('"' :: (content.toList ++ ['"']))
  | word text => text

end Token

end DynLisp
