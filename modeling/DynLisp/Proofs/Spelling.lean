/-
  Proofs/Spelling.lean --- texts of which it is known how they are cut.

  WHAT THIS FILE IS FOR.  The lexer cuts a text from its front.  For each kind of
  token there is one theorem that says what is cut off a text which starts with
  such a token, whatever comes after it.  Only a word asks for more: what comes
  after it has to end it.

  The other way round, a token that the lexer has cut is `Legible`: it can be
  written down again so that it is cut in the same place.
-/
import DynLisp.Token.Stream

set_option autoImplicit false

namespace DynLisp.Token

/-! ## What comes out of the lexer -/

/-- A text that the lexer takes for one word. -/
structure IsWord (comments : Bool) (text : List Char) : Prop where
  ne_nil : text ≠ []
  chars : ∀ c ∈ text, isWordChar comments c = true
  head : ∀ c, text.head? = some c → c ≠ '"' ∧ c ≠ '\''

/-- The token can be written down so that it is read again. -/
def Legible (comments : Bool) : Token → Prop
  | word text => IsWord comments text.toList
  | string content => '"' ∉ content.toList
  | opening | closing | quote => True

variable {comments : Bool}

theorem afterGap_head {text rest : List Char} {c : Char} (h : afterGap comments text = c :: rest) :
    Text.isBlank c = false ∧ startsComment comments c = false := by
  fun_induction afterGap comments text with
  | case1 => simp at h
  | case2 _ _ _ ih => exact ih h
  | case3 _ _ _ _ ih => exact ih h
  | case4 d more hblank hcomment =>
    obtain ⟨rfl, -⟩ := List.cons.inj h
    exact ⟨by simpa using hblank, by simpa using hcomment⟩

/-- A word runs on for as long as its characters are those of words. -/
theorem isWord_takeWhile {c : Char} (hc : isWordChar comments c = true) (hdouble : c ≠ '"')
    (hquote : c ≠ '\'') (rest : List Char) :
    IsWord comments (c :: rest.takeWhile (isWordChar comments)) where
  ne_nil := List.cons_ne_nil _ _
  chars d hd := by
    rcases List.mem_cons.mp hd with rfl | hd
    · exact hc
    · exact List.all_eq_true.mp List.all_takeWhile d hd
  head d hd := by
    obtain rfl : c = d := Option.some.inj hd
    exact ⟨hdouble, hquote⟩

theorem legible_lexemeFrom {c : Char} (hblank : Text.isBlank c = false)
    (hcomment : startsComment comments c = false) (rest : List Char) :
    (lexemeFrom comments c rest).1.token.Legible comments := by
  unfold lexemeFrom
  by_cases hdouble : c = '"'
  · have hbody : '"' ∉ rest.takeWhile (· ≠ '"') := by
      intro hmem
      simpa using List.all_eq_true.mp List.all_takeWhile _ hmem
    rw [if_pos hdouble]
    dsimp only
    split <;> simpa only [Legible, String.toList_ofList] using hbody
  rw [if_neg hdouble]
  by_cases hopening : c = '('
  · rw [if_pos hopening]
    trivial
  rw [if_neg hopening]
  by_cases hclosing : c = ')'
  · rw [if_pos hclosing]
    trivial
  rw [if_neg hclosing]
  by_cases hquote : c = '\''
  · rw [if_pos hquote]
    trivial
  have hc : isWordChar comments c = true := by
    simp [isWordChar, hblank, hcomment, hopening, hclosing]
  rw [if_neg hquote]
  show IsWord comments (String.toList _)
  rw [String.toList_ofList]
  exact isWord_takeWhile hc hdouble hquote rest

/-- Every token of a text can be written down again. -/
theorem legible_lexemes (text : List Char) :
    ∀ lexeme ∈ lexemes comments text, lexeme.token.Legible comments := by
  fun_induction lexemes comments text with
  | case1 => simp
  | case2 text c rest hgap ih =>
    obtain ⟨hblank, hcomment⟩ := afterGap_head hgap
    intro lexeme hlexeme
    rcases List.mem_cons.mp hlexeme with rfl | hlexeme
    · exact legible_lexemeFrom hblank hcomment rest
    · exact ih lexeme hlexeme

/-! ## What goes into the lexer -/

/-- What comes after a word ends it. -/
def EndsWord (comments : Bool) (rest : List Char) : Prop :=
  ∀ c, rest.head? = some c → isWordChar comments c = false

theorem lexemes_cons {c : Char} (hblank : Text.isBlank c = false)
    (hcomment : startsComment comments c = false) (rest : List Char) :
    lexemes comments (c :: rest) =
      (lexemeFrom comments c rest).1 :: lexemes comments (lexemeFrom comments c rest).2 := by
  have hgap : afterGap comments (c :: rest) = c :: rest := by
    rw [afterGap, if_neg (by simp [hblank]), if_neg (by simp [hcomment])]
  rw [lexemes]
  split
  · rename_i heq
    rw [hgap] at heq
    simp at heq
  · rename_i d more heq
    rw [hgap] at heq
    obtain ⟨rfl, rfl⟩ := List.cons.inj heq
    rfl

theorem lexemes_nil : lexemes comments [] = [] := by
  rw [lexemes]
  split
  · rfl
  · rename_i heq
    simp [afterGap] at heq

/-- Blank space before a token is passed over. -/
theorem lexemes_space (rest : List Char) :
    lexemes comments (' ' :: rest) = lexemes comments rest := by
  have hgap : afterGap comments (' ' :: rest) = afterGap comments rest := by
    rw [afterGap, if_pos (by decide)]
  rw [lexemes, lexemes, hgap]

theorem lexemes_opening (rest : List Char) :
    lexemes comments ('(' :: rest) = ⟨opening, true⟩ :: lexemes comments rest :=
  lexemes_cons (by decide) (by simp [startsComment]) rest

theorem lexemes_closing (rest : List Char) :
    lexemes comments (')' :: rest) = ⟨closing, true⟩ :: lexemes comments rest :=
  lexemes_cons (by decide) (by simp [startsComment]) rest

theorem lexemes_quote (rest : List Char) :
    lexemes comments ('\'' :: rest) = ⟨quote, true⟩ :: lexemes comments rest :=
  lexemes_cons (by decide) (by simp [startsComment]) rest

theorem lexemes_string {content : List Char} (h : '"' ∉ content) (rest : List Char) :
    lexemes comments ('"' :: (content ++ '"' :: rest)) =
      ⟨string (String.ofList content), true⟩ :: lexemes comments rest := by
  have hcontent : ∀ c ∈ content, decide (c ≠ '"') = true := by
    intro c hc
    exact decide_eq_true fun heq => h (heq ▸ hc)
  have hlexeme : lexemeFrom comments '"' (content ++ '"' :: rest) =
      (⟨string (String.ofList content), true⟩, rest) := by
    unfold lexemeFrom
    rw [if_pos rfl, List.takeWhile_append_of_pos hcontent, List.dropWhile_append_of_pos hcontent]
    simp
  rw [lexemes_cons (by decide) (by simp [startsComment]), hlexeme]

theorem lexemes_word {text rest : List Char} (h : IsWord comments text)
    (hrest : EndsWord comments rest) :
    lexemes comments (text ++ rest) =
      ⟨word (String.ofList text), true⟩ :: lexemes comments rest := by
  obtain ⟨c, more, rfl⟩ := List.exists_cons_of_ne_nil h.ne_nil
  obtain ⟨hdouble, hquote⟩ := h.head c rfl
  have hc := h.chars c List.mem_cons_self
  have hmore : ∀ d ∈ more, isWordChar comments d = true :=
    fun d hd => h.chars d (List.mem_cons_of_mem c hd)
  simp only [isWordChar, Bool.not_eq_true', Bool.or_eq_false_iff, decide_eq_false_iff_not] at hc
  obtain ⟨⟨⟨hblank, hopening⟩, hclosing⟩, hcomment⟩ := hc
  have hend : rest.takeWhile (isWordChar comments) = [] ∧
      rest.dropWhile (isWordChar comments) = rest := by
    cases rest with
    | nil => exact ⟨rfl, rfl⟩
    | cons d after => simp [hrest d rfl]
  have hlexeme : lexemeFrom comments c (more ++ rest) =
      (⟨word (String.ofList (c :: more)), true⟩, rest) := by
    unfold lexemeFrom
    rw [if_neg hdouble, if_neg hopening, if_neg hclosing, if_neg hquote,
      List.takeWhile_append_of_pos hmore, List.dropWhile_append_of_pos hmore, hend.1, hend.2,
      List.append_nil]
  rw [List.cons_append, lexemes_cons hblank hcomment, hlexeme]

end DynLisp.Token
