/-
  Proofs/Cuts.lean --- a text is its tokens with gaps between them.

  WHAT THIS FILE IS FOR.  The lexer is a function.  Here is what it computes, as a
  relation that mentions no lexer: a text is `Cut` into lexemes if it is a gap, the
  source of the first lexeme, a gap, the source of the second, and so on to a last
  gap.  `lexemes_eq_iff`: the lexer finds some lexemes exactly if the text is cut
  into them.  So nothing of a text is lost, and there is only one way to cut it.

  THE ORDER OF ATTEMPTS.  `lexemeFrom` looks at one character to tell what follows.
  `next?` tries one kind of token after another and may find that none applies;
  `lexemesOrStall` would then stop and drop the rest.  It never does
  (`lexemesOrStall_eq`).
-/
import DynLisp.Proofs.Spelling

set_option autoImplicit false

namespace DynLisp.Token

/-! ## The relation -/

/-- A lexeme as it stands in its text.  A string literal that is open has no second quote. -/
def Lexeme.source : Lexeme → List Char
  | ⟨string content, false⟩ => '"' :: content.toList
  | ⟨token, _⟩ => token.render.toList

/-- A text is a gap if some other text comes after it: it is made of white space and, if comments
are on, of comments, each of which runs up to the end of its line. -/
inductive Gap (comments : Bool) (rest : List Char) : List Char → Prop where
  | nothing : Gap comments rest []
  | blank {c : Char} {gap : List Char} (hc : Text.isBlank c = true) (h : Gap comments rest gap) :
    Gap comments rest (c :: gap)
  | comment {body gap : List Char} (hcomments : comments = true) (hbody : '\n' ∉ body)
      (hend : ∀ c, (gap ++ rest).head? = some c → c = '\n') (h : Gap comments rest gap) :
    Gap comments rest (';' :: (body ++ gap))

/-- A lexeme can stand where some text comes after it.  A word has to be ended by that text, and
after an open string literal there is none. -/
inductive Lexeme.Stands (comments : Bool) : Lexeme → (rest : List Char) → Prop where
  | opening (rest : List Char) : Stands comments ⟨.opening, true⟩ rest
  | closing (rest : List Char) : Stands comments ⟨.closing, true⟩ rest
  | quote (rest : List Char) : Stands comments ⟨.quote, true⟩ rest
  | string {content : String} (h : '"' ∉ content.toList) (rest : List Char) :
    Stands comments ⟨.string content, true⟩ rest
  | openString {content : String} (h : '"' ∉ content.toList) :
    Stands comments ⟨.string content, false⟩ []
  | word {text : String} (h : IsWord comments text.toList) {rest : List Char}
      (hrest : EndsWord comments rest) : Stands comments ⟨.word text, true⟩ rest

/-- A text is cut into lexemes: before each of them and after the last there is a gap. -/
inductive Cut (comments : Bool) : List Char → List Lexeme → Prop where
  | gap {gap : List Char} (h : Gap comments [] gap) : Cut comments gap []
  | lexeme {gap rest : List Char} {lexeme : Lexeme} {more : List Lexeme}
      (hgap : Gap comments (lexeme.source ++ rest) gap) (hlexeme : lexeme.Stands comments rest)
      (hmore : Cut comments rest more) :
    Cut comments (gap ++ (lexeme.source ++ rest)) (lexeme :: more)

variable {comments : Bool}

/-! ## Gaps -/

theorem isBlank_semicolon : Text.isBlank ';' = false := by decide

/-- What is dropped up to ends where the test fails. -/
theorem eq_false_of_head?_dropWhile {p : Char → Bool} {text : List Char} {c : Char}
    (h : (text.dropWhile p).head? = some c) : p c = false := by
  have hstop := List.head?_dropWhile_not p text
  rw [h] at hstop
  simpa using hstop

theorem dropWhile_ne_of_head? {a : Char} {text : List Char}
    (h : ∀ c, text.head? = some c → c = a) : text.dropWhile (· ≠ a) = text := by
  cases text with
  | nil => rfl
  | cons c rest =>
    obtain rfl : c = a := h c rfl
    simp

theorem afterGap_comment (rest : List Char) :
    afterGap true (';' :: rest) = afterGap true (rest.dropWhile (· ≠ '\n')) := by
  rw [afterGap, isBlank_semicolon, if_neg Bool.false_ne_true, if_pos (by rfl)]

/-- A gap is passed over. -/
theorem Gap.afterGap_append {gap rest : List Char} (h : Gap comments rest gap) :
    afterGap comments (gap ++ rest) = afterGap comments rest := by
  induction h with
  | nothing => rfl
  | blank hc _ ih => rw [List.cons_append, afterGap, if_pos hc, ih]
  | @comment body gap hcomments hbody hend _ ih =>
    subst hcomments
    have hkept : ∀ c ∈ body, decide (c ≠ '\n') = true :=
      fun c hc => decide_eq_true fun heq => hbody (heq ▸ hc)
    rw [List.cons_append, List.append_assoc, afterGap_comment,
      List.dropWhile_append_of_pos hkept, dropWhile_ne_of_head? hend, ih]

/-- What is passed over is a gap. -/
theorem exists_gap (text : List Char) :
    ∃ gap, text = gap ++ afterGap comments text ∧ Gap comments (afterGap comments text) gap := by
  fun_induction afterGap comments text with
  | case1 => exact ⟨[], rfl, .nothing⟩
  | case2 c rest hblank ih =>
    obtain ⟨gap, htext, hgap⟩ := ih
    exact ⟨c :: gap, congrArg (c :: ·) htext, .blank hblank hgap⟩
  | case3 c rest hblank hcomment ih =>
    obtain ⟨gap, hline, hgap⟩ := ih
    obtain ⟨hcomments, rfl⟩ : comments = true ∧ c = ';' := by
      simpa [startsComment] using hcomment
    refine ⟨';' :: (rest.takeWhile (· ≠ '\n') ++ gap), ?_, .comment hcomments ?_ ?_ hgap⟩
    · rw [List.cons_append, List.append_assoc, ← hline, List.takeWhile_append_dropWhile]
    · intro hmem
      simpa using List.all_eq_true.mp List.all_takeWhile _ hmem
    · intro c hc
      rw [← hline] at hc
      simpa using eq_false_of_head?_dropWhile hc
  | case4 => exact ⟨[], rfl, .nothing⟩

/-! ## Lexemes -/

theorem source_string (content : String) :
    Lexeme.source ⟨.string content, true⟩ = '"' :: (content.toList ++ ['"']) := by
  show (string content).render.toList = _
  rw [render, String.toList_ofList]

/-- What the lexer takes off the front of a text is the source of a lexeme that can stand there. -/
theorem stands_lexemeFrom {c : Char} (hblank : Text.isBlank c = false)
    (hcomment : startsComment comments c = false) (rest : List Char) :
    c :: rest = (lexemeFrom comments c rest).1.source ++ (lexemeFrom comments c rest).2 ∧
      (lexemeFrom comments c rest).1.Stands comments (lexemeFrom comments c rest).2 := by
  have hlegible := legible_lexemeFrom hblank hcomment rest
  revert hlegible
  unfold lexemeFrom
  by_cases hdouble : c = '"'
  · subst hdouble
    rw [if_pos rfl]
    dsimp only
    have hrest := List.takeWhile_append_dropWhile (p := (· ≠ '"')) (l := rest)
    split
    · rename_i hnone
      intro hlegible
      refine ⟨?_, .openString hlegible⟩
      rw [hnone, List.append_nil] at hrest
      simp only [Lexeme.source, String.toList_ofList, hrest, List.append_nil]
    · rename_i d after hsome
      intro hlegible
      obtain rfl : d = '"' := by
        simpa using eq_false_of_head?_dropWhile (congrArg List.head? hsome)
      refine ⟨?_, .string hlegible after⟩
      rw [source_string, String.toList_ofList, List.cons_append, List.append_assoc,
        List.singleton_append, ← hsome, hrest]
  rw [if_neg hdouble]
  by_cases hopening : c = '('
  · subst hopening
    exact fun _ => ⟨rfl, .opening rest⟩
  rw [if_neg hopening]
  by_cases hclosing : c = ')'
  · subst hclosing
    exact fun _ => ⟨rfl, .closing rest⟩
  rw [if_neg hclosing]
  by_cases hquote : c = '\''
  · subst hquote
    exact fun _ => ⟨rfl, .quote rest⟩
  rw [if_neg hquote]
  intro hlegible
  refine ⟨?_, .word hlegible fun d hd => ?_⟩
  · show c :: rest = String.toList (String.ofList _) ++ _
    rw [String.toList_ofList, List.cons_append, List.takeWhile_append_dropWhile]
  · exact eq_false_of_head?_dropWhile hd

theorem lexemes_openString {content : List Char} (h : '"' ∉ content) :
    lexemes comments ('"' :: content) = [⟨string (String.ofList content), false⟩] := by
  have hcontent : ∀ c ∈ content, decide (c ≠ '"') = true :=
    fun c hc => decide_eq_true fun heq => h (heq ▸ hc)
  have hlexeme : lexemeFrom comments '"' content =
      (⟨string (String.ofList content), false⟩, []) := by
    unfold lexemeFrom
    rw [if_pos rfl, ← List.append_nil content, List.takeWhile_append_of_pos hcontent,
      List.dropWhile_append_of_pos hcontent]
    rfl
  rw [lexemes_cons (by decide) (by simp [startsComment]), hlexeme, lexemes_nil]

/-- A lexeme that can stand at the front of a text is cut off it. -/
theorem Lexeme.Stands.lexemes_append {lexeme : Lexeme} {rest : List Char}
    (h : lexeme.Stands comments rest) :
    lexemes comments (lexeme.source ++ rest) = lexeme :: lexemes comments rest := by
  cases h with
  | opening => exact lexemes_opening rest
  | closing => exact lexemes_closing rest
  | quote => exact lexemes_quote rest
  | @string content h =>
    have hcut := @lexemes_string comments _ h rest
    rw [String.ofList_toList] at hcut
    rw [source_string, List.cons_append, List.append_assoc, List.singleton_append]
    exact hcut
  | @openString content h =>
    have hcut := @lexemes_openString comments _ h
    rw [String.ofList_toList] at hcut
    rw [List.append_nil, lexemes_nil]
    exact hcut
  | @word text h _ hrest =>
    have hcut := lexemes_word h hrest
    rwa [String.ofList_toList] at hcut

/-! ## The two agree -/

theorem lexemes_congr {text text' : List Char}
    (h : afterGap comments text = afterGap comments text') :
    lexemes comments text = lexemes comments text' := by
  rw [lexemes, lexemes, h]

theorem cut_lexemes (text : List Char) : Cut comments text (lexemes comments text) := by
  fun_induction lexemes comments text with
  | case1 text hnone =>
    obtain ⟨gap, htext, hgap⟩ := @exists_gap comments text
    rw [hnone] at htext hgap
    rw [htext, List.append_nil]
    exact .gap hgap
  | case2 text c rest hsome ih =>
    obtain ⟨hblank, hcomment⟩ := afterGap_head hsome
    obtain ⟨gap, htext, hgap⟩ := @exists_gap comments text
    obtain ⟨hsource, hstands⟩ := stands_lexemeFrom hblank hcomment rest
    rw [hsome, hsource] at htext hgap
    rw [htext]
    exact .lexeme hgap hstands ih

theorem Cut.lexemes_eq {text : List Char} {found : List Lexeme} (h : Cut comments text found) :
    lexemes comments text = found := by
  induction h with
  | gap h =>
    have hnone := h.afterGap_append
    rw [List.append_nil] at hnone
    rw [lexemes_congr hnone, lexemes_nil]
  | lexeme hgap hlexeme _ ih =>
    rw [lexemes_congr hgap.afterGap_append, hlexeme.lexemes_append, ih]

/-- The lexer finds some lexemes exactly if the text is cut into them. -/
theorem lexemes_eq_iff {text : List Char} {found : List Lexeme} :
    lexemes comments text = found ↔ Cut comments text found :=
  ⟨fun h => h ▸ cut_lexemes text, Cut.lexemes_eq⟩

/-! ## One attempt after another -/

/-- Take a string literal, up to its second quote or to the end. -/
def literal? : List Char → Option (Lexeme × List Char)
  | [] => none
  | c :: rest =>
    if c = '"' then
      let content := String.ofList (rest.takeWhile (· ≠ '"'))
      match rest.dropWhile (· ≠ '"') with
      | [] => some (⟨string content, false⟩, [])
      | _ :: after => some (⟨string content, true⟩, after)
    else none

/-- Take a token that is one character long. -/
def mark? (mark : Char) (token : Token) : List Char → Option (Lexeme × List Char)
  | [] => none
  | c :: rest => if c = mark then some (⟨token, true⟩, rest) else none

/-- Take as many characters as can stand in a word, and at least one. -/
def word? (comments : Bool) (text : List Char) : Option (Lexeme × List Char) :=
  match text.takeWhile (isWordChar comments) with
  | [] => none
  | c :: more =>
    some (⟨word (String.ofList (c :: more)), true⟩, text.dropWhile (isWordChar comments))

/-- What the first attempt that succeeds takes off the front of a text, and the text after it. -/
def next? (comments : Bool) (text : List Char) : Option (Lexeme × List Char) :=
  literal? text <|> mark? '(' opening text <|> mark? ')' closing text <|> mark? '\'' quote text <|>
    word? comments text

/-- After a gap there is always an attempt that succeeds, and it takes what the first character
promises. -/
theorem next?_eq_lexemeFrom {c : Char} (hblank : Text.isBlank c = false)
    (hcomment : startsComment comments c = false) (rest : List Char) :
    next? comments (c :: rest) = some (lexemeFrom comments c rest) := by
  unfold next? literal? mark? lexemeFrom
  by_cases hdouble : c = '"'
  · simp only [hdouble, if_true]
    cases rest.dropWhile (· ≠ '"') <;> rfl
  by_cases hopening : c = '('
  · simp [hopening]
  by_cases hclosing : c = ')'
  · simp [hclosing]
  by_cases hquote : c = '\''
  · simp [hquote]
  have hc : isWordChar comments c = true := by
    simp [isWordChar, hblank, hcomment, hopening, hclosing]
  simp only [hdouble, hopening, hclosing, hquote, if_false]
  show word? comments (c :: rest) = _
  rw [word?, List.takeWhile_cons_of_pos hc, List.dropWhile_cons_of_pos hc]

/-- The lexemes of a text, and the text that is dropped where no attempt succeeds. -/
def lexemesOrStall (comments : Bool) (text : List Char) : List Lexeme × List Char :=
  match _ : afterGap comments text with
  | [] => ([], [])
  | c :: rest =>
    match _ : next? comments (c :: rest) with
    | none => ([], c :: rest)
    | some (lexeme, after) =>
      (lexeme :: (lexemesOrStall comments after).1, (lexemesOrStall comments after).2)
termination_by text.length
decreasing_by
  all_goals
    rename_i hgap hnext
    obtain ⟨hblank, hcomment⟩ := afterGap_head hgap
    rw [next?_eq_lexemeFrom hblank hcomment] at hnext
    have hle := length_lexemeFrom_le comments c rest
    have hshorter := length_afterGap_le comments text
    rw [Option.some.inj hnext] at hle
    rw [hgap] at hshorter
    exact Nat.lt_of_lt_of_le (Nat.lt_succ_of_le hle) hshorter

/-- Nothing is ever dropped. -/
theorem lexemesOrStall_eq (text : List Char) :
    lexemesOrStall comments text = (lexemes comments text, []) := by
  fun_induction lexemes comments text with
  | case1 text hnone =>
    unfold lexemesOrStall
    split
    · rfl
    · rename_i hsome
      rw [hnone] at hsome
      simp at hsome
  | case2 text c rest hsome ih =>
    obtain ⟨hblank, hcomment⟩ := afterGap_head hsome
    have hnext := next?_eq_lexemeFrom hblank hcomment rest
    unfold lexemesOrStall
    split
    · rename_i hnone
      rw [hsome] at hnone
      simp at hnone
    · rename_i d more hsome'
      obtain ⟨rfl, rfl⟩ := List.cons.inj (hsome.symm.trans hsome')
      split
      · rename_i hstall
        rw [hnext] at hstall
        simp at hstall
      · rename_i lexeme after hfound
        rw [hnext] at hfound
        rw [Option.some.inj hfound] at ih ⊢
        rw [ih]

/-! ## The open string literal -/

/-- An open lexeme is the last one of its text, and a string literal. -/
theorem Cut.of_open {text : List Char} {found : List Lexeme} (h : Cut comments text found)
    {i : Nat} {lexeme : Lexeme} (hi : found[i]? = some lexeme) (hopen : lexeme.closed = false) :
    i + 1 = found.length ∧ ∃ content, lexeme = ⟨string content, false⟩ := by
  induction h generalizing i with
  | gap => simp at hi
  | @lexeme gap rest first more _ hstands hmore ih =>
    cases i with
    | succ i =>
      obtain ⟨hlast, hstring⟩ := ih hi
      exact ⟨congrArg (· + 1) hlast, hstring⟩
    | zero =>
      obtain rfl : first = lexeme := Option.some.inj hi
      cases hstands with
      | @openString content =>
        obtain rfl : [] = more := lexemes_nil.symm.trans hmore.lexemes_eq
        exact ⟨rfl, content, rfl⟩
      | opening | closing | quote | string | word => simp at hopen

theorem Cut.findIdx?_open_eq_some_iff {text : List Char} {found : List Lexeme}
    (h : Cut comments text found) (i : Nat) :
    found.findIdx? (!·.closed) = some i ↔
      i + 1 = found.length ∧ ∃ content, found[i]? = some ⟨string content, false⟩ := by
  rw [List.findIdx?_eq_some_iff_getElem]
  constructor
  · rintro ⟨hi, hopen, -⟩
    have hget := List.getElem?_eq_getElem hi
    obtain ⟨hlast, content, hstring⟩ := h.of_open hget (by simpa using hopen)
    exact ⟨hlast, content, hget.trans (congrArg some hstring)⟩
  · rintro ⟨hlast, content, hget⟩
    obtain ⟨hi, hstring⟩ := List.getElem?_eq_some_iff.mp hget
    refine ⟨hi, by simp [hstring], fun j hj => ?_⟩
    -- A lexeme that were open before this one would be the last as well.
    intro hopen
    have hj' := h.of_open (List.getElem?_eq_getElem (Nat.lt_trans hj hi)) (by simpa using hopen)
    omega

/-- Only an open string literal is printed otherwise than it stands in its text. -/
theorem Lexeme.source_ne_render_iff (lexeme : Lexeme) :
    lexeme.source ≠ lexeme.token.render.toList ↔
      ∃ content, lexeme = ⟨string content, false⟩ := by
  obtain ⟨token, closed⟩ := lexeme
  constructor
  · intro hne
    cases token with
    | opening | closing | quote | word => exact absurd rfl hne
    | string content =>
      cases closed with
      | true => exact absurd rfl hne
      | false => exact ⟨content, rfl⟩
  · rintro ⟨content, heq⟩ hsame
    rw [heq] at hsame
    have hlength := congrArg List.length hsame
    simp [source, render] at hlength

namespace Stream

/-- The tokens of a text are some given ones exactly if the text is cut into lexemes of which they
are the tokens.  The string literal noted as unterminated is the last lexeme, if that is one without
its second quote, and no other token is printed otherwise than it stands in the text.  And trying
one kind of token after another never leaves a part of the text over. -/
theorem tokens_ofText_eq_iff (comments : Bool) (text : String) :
    (∀ tokens, (ofText comments text).tokens = tokens ↔
      ∃ found, Cut comments text.toList found ∧ found.map (·.token) = tokens) ∧
    (∀ found, Cut comments text.toList found → ∀ i,
      ((ofText comments text).unterminated = some i ↔
        i + 1 = found.length ∧ ∃ content, found[i]? = some ⟨string content, false⟩) ∧
      ∀ lexeme, found[i]? = some lexeme →
        (lexeme.source ≠ lexeme.token.render.toList ↔
          (ofText comments text).unterminated = some i)) ∧
    lexemesOrStall comments text.toList = (lexemes comments text.toList, []) := by
  refine ⟨fun tokens => ?_, fun found hcut i => ?_, lexemesOrStall_eq _⟩
  · constructor
    · exact fun htokens => ⟨_, lexemes_eq_iff.mp rfl, htokens⟩
    · rintro ⟨found, hcut, rfl⟩
      exact congrArg (List.map (·.token)) (lexemes_eq_iff.mpr hcut)
  · have hopen : (ofText comments text).unterminated = found.findIdx? (!·.closed) := by
      rw [← hcut.lexemes_eq]
      rfl
    rw [hopen, hcut.findIdx?_open_eq_some_iff]
    refine ⟨Iff.rfl, fun lexeme hi => ?_⟩
    rw [lexeme.source_ne_render_iff]
    constructor
    · rintro ⟨content, rfl⟩
      exact ⟨(hcut.of_open hi rfl).1, content, hi⟩
    · rintro ⟨-, content, hstring⟩
      exact ⟨content, Option.some.inj (hi.symm.trans hstring)⟩

end Stream

end DynLisp.Token
