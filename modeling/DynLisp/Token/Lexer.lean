/-
  Token/Lexer.lean --- cutting a text into tokens.

  WHAT THIS FILE IS FOR.  Between tokens there may be gaps: white space and, if
  comments are on, everything from a `;` up to the end of its line.  What stands
  after a gap is told by its first character.  A string literal runs to the next
  double quote, or to the end of the text if there is none; parentheses and the
  quote mark stand alone; any other character starts a word, which runs up to
  white space, a parenthesis or a comment.  Marks inside a word are part of it.

  Cutting never fails: the worst a text can hold is a string literal without its
  closing quote, which is noted on its lexeme.
-/
import DynLisp.Text.Blank
import DynLisp.Token

set_option autoImplicit false

namespace DynLisp.Token

/-- A token found in a text.  Only a string literal can be left open. -/
structure Lexeme where
  token : Token
  closed : Bool := true
  deriving DecidableEq, Repr

/-! ## Gaps -/

/-- The character starts a comment. -/
def startsComment (comments : Bool) (c : Char) : Bool := comments && c = ';'

/-- The text after the gap it may start with. -/
def afterGap (comments : Bool) : List Char → List Char
  | [] => []
  | c :: rest =>
    if Text.isBlank c then afterGap comments rest
    else if startsComment comments c then afterGap comments (rest.dropWhile (· ≠ '\n'))
    else c :: rest
termination_by text => text.length
decreasing_by
  · simp
  · exact Nat.lt_succ_of_le (List.dropWhile_suffix _).length_le

theorem length_afterGap_le (comments : Bool) (text : List Char) :
    (afterGap comments text).length ≤ text.length := by
  fun_induction afterGap comments text with
  | case1 => simp
  | case2 c rest _ ih => simp only [List.length_cons]; omega
  | case3 c rest _ _ ih =>
    have := (List.dropWhile_suffix (l := rest) (· ≠ '\n')).length_le
    simp only [List.length_cons]; omega
  | case4 => simp

/-! ## Tokens -/

/-- The character can stand inside a word. -/
def isWordChar (comments : Bool) (c : Char) : Bool :=
  !(Text.isBlank c || c = '(' || c = ')' || startsComment comments c)

/-- The lexeme that starts with a character, and the text after it. -/
def lexemeFrom (comments : Bool) (c : Char) (rest : List Char) : Lexeme × List Char :=
  if c = '"' then
    let body := String.ofList (rest.takeWhile (· ≠ '"'))
    match rest.dropWhile (· ≠ '"') with
    | [] => (⟨string body, false⟩, [])
    | _ :: after => (⟨string body, true⟩, after)
  else if c = '(' then (⟨opening, true⟩, rest)
  else if c = ')' then (⟨closing, true⟩, rest)
  else if c = '\'' then (⟨quote, true⟩, rest)
  else
    (⟨word (String.ofList (c :: rest.takeWhile (isWordChar comments))), true⟩,
      rest.dropWhile (isWordChar comments))

theorem length_lexemeFrom_le (comments : Bool) (c : Char) (rest : List Char) :
    (lexemeFrom comments c rest).2.length ≤ rest.length := by
  unfold lexemeFrom
  split
  · have := (List.dropWhile_suffix (l := rest) (· ≠ '"')).length_le
    split
    · simp
    · next h => rw [h] at this; exact Nat.le_of_succ_le this
  · split
    · simp
    · split
      · simp
      · split
        · simp
        · exact (List.dropWhile_suffix _).length_le

/-- The lexemes of a text, in order. -/
def lexemes (comments : Bool) (text : List Char) : List Lexeme :=
  match _ : afterGap comments text with
  | [] => []
  | c :: rest =>
    (lexemeFrom comments c rest).1 :: lexemes comments (lexemeFrom comments c rest).2
termination_by text.length
decreasing_by
  rename_i after
  have := length_lexemeFrom_le comments c rest
  have := length_afterGap_le comments text
  simp only [after, List.length_cons] at this
  omega

end DynLisp.Token
