/-
  Text/Blank.lean --- white space and lines.

  WHAT THIS FILE IS FOR.  Tokens are separated by white space, lines typed at
  the prompt are trimmed of it, and a line that holds nothing else is skipped.
  All three use one set: the 25 characters with the Unicode property White_Space.
  Lines are cut at line feeds alone.
-/
set_option autoImplicit false

namespace DynLisp.Text

/-- The characters with the Unicode property White_Space, as closed ranges in ascending order. -/
def blankRanges : List (Nat × Nat) :=
  [(0x09, 0x0D), (0x20, 0x20), (0x85, 0x85), (0xA0, 0xA0), (0x1680, 0x1680), (0x2000, 0x200A),
    (0x2028, 0x2029), (0x202F, 0x202F), (0x205F, 0x205F), (0x3000, 0x3000)]

/-- The character code lies in one of the ranges. -/
def inRanges (ranges : List (Nat × Nat)) (code : Nat) : Bool :=
  ranges.any fun range => range.1 ≤ code && code ≤ range.2

/-- The character is white space. -/
def isBlank (c : Char) : Bool := inRanges blankRanges c.toNat

/-- The text without the white space at its two ends. -/
def trim (text : List Char) : List Char :=
  (((text.dropWhile isBlank).reverse).dropWhile isBlank).reverse

/-! ## Lines -/

/-- The text cut at every line feed: one piece more than there are line feeds. -/
def splitAtLineFeeds : List Char → List (List Char)
  | [] => [[]]
  | '\n' :: rest => [] :: splitAtLineFeeds rest
  | c :: rest =>
    match splitAtLineFeeds rest with
    | [] => [[c]]
    | line :: more => (c :: line) :: more

/-- A line without the carriage return it may end in. -/
def dropFinalReturn (line : List Char) : List Char :=
  if line.getLast? = some '\r' then line.dropLast else line

/-- The lines that the pieces stand for.  Every piece but the last was ended by a line feed and
gives up a carriage return before it; an empty last piece is no line. -/
def linesOfPieces : List (List Char) → List (List Char)
  | [] => []
  | [last] => if last.isEmpty then [] else [last]
  | piece :: more => dropFinalReturn piece :: linesOfPieces more

/-- The lines of a text, without their line ends. -/
def lines (text : List Char) : List (List Char) := linesOfPieces (splitAtLineFeeds text)

end DynLisp.Text
