/-
  Proofs/Comments.lean --- comments are blank space.

  WHAT THIS FILE IS FOR.  Three parts of the lexer have to agree about where a comment
  starts: the gap before a token, the end of a word, and the string literal, in which none
  does.  Here is what that comes to.  A text with its comments on is cut like the text in
  which each comment is one space, with comments off (`ofText_withoutComments`).

  WHERE A COMMENT STARTS.  At a `;` that stands in no string literal, and that is a question
  about the text before it: whether the lexer leaves a literal open there (`inLiteral`).

  HOW IT IS PROVED.  A `Place` is all that the text before a character tells about it.  It
  is found in one pass and by one character after the other, and agrees with the lexer
  (`inLiteral_iff`).  So what is kept of a gap or of a lexeme can be said by itself,
  wherever the lexeme stands.
-/
import DynLisp.Proofs.Trimming

set_option autoImplicit false

namespace DynLisp.Token

/-! ## Texts without comments -/

/-- The lexer leaves a string literal open at the end of a text, so that what follows stands in
that literal. -/
def inLiteral (before : List Char) : Bool :=
  (Stream.ofText true (String.ofList before)).unterminated.isSome

/-- A text with one space for each comment, if some other text comes before it.  A comment runs from
a `;` that stands in no string literal up to the end of its line. -/
def withoutComments (before : List Char) : List Char → List Char
  | [] => []
  | c :: rest =>
    if c = ';' ∧ inLiteral before = false then
      ' ' :: withoutComments (before ++ ';' :: rest.takeWhile (· ≠ '\n'))
        (rest.dropWhile (· ≠ '\n'))
    else c :: withoutComments (before ++ [c]) rest
termination_by text => text.length
decreasing_by
  · exact Nat.lt_succ_of_le (List.dropWhile_suffix _).length_le
  · simp

theorem withoutComments_nil (before : List Char) : withoutComments before [] = [] := by
  rw [withoutComments]

theorem withoutComments_keep {before : List Char} {c : Char}
    (h : c = ';' → inLiteral before = true) (rest : List Char) :
    withoutComments before (c :: rest) = c :: withoutComments (before ++ [c]) rest := by
  have hno : ¬(c = ';' ∧ inLiteral before = false) := fun ⟨hc, hout⟩ => by
    rw [h hc] at hout
    exact Bool.noConfusion hout
  rw [withoutComments, if_neg hno]

theorem withoutComments_comment {before body rest : List Char} (h : inLiteral before = false)
    (hbody : '\n' ∉ body) (hend : ∀ c, rest.head? = some c → c = '\n') :
    withoutComments before (';' :: (body ++ rest)) =
      ' ' :: withoutComments (before ++ ';' :: body) rest := by
  have hline : ∀ c ∈ body, decide (c ≠ '\n') = true :=
    fun c hc => decide_eq_true fun heq => hbody (heq ▸ hc)
  have hnone : rest.takeWhile (· ≠ '\n') = [] := by
    cases rest with
    | nil => rfl
    | cons c more => simp [hend c rfl]
  rw [withoutComments, if_pos ⟨rfl, h⟩, List.takeWhile_append_of_pos hline,
    List.dropWhile_append_of_pos hline, hnone, List.append_nil, dropWhile_ne_of_head? hend]

/-- A part of a text in which every `;` stands in a string literal is kept. -/
theorem withoutComments_append {before run : List Char}
    (h : ∀ i, run[i]? = some ';' → inLiteral (before ++ run.take i) = true) (rest : List Char) :
    withoutComments before (run ++ rest) = run ++ withoutComments (before ++ run) rest := by
  induction run generalizing before with
  | nil => simp
  | cons c run ih =>
    have hc : c = ';' → inLiteral before = true := fun hc => by
      simpa using h 0 (congrArg some hc)
    have hrun : ∀ i, run[i]? = some ';' → inLiteral (before ++ [c] ++ run.take i) = true :=
      fun i hi => by simpa using h (i + 1) hi
    rw [List.cons_append, withoutComments_keep hc, ih hrun, List.append_assoc]
    rfl

/-- Without comments there is one character more that can stand in a word. -/
theorem isWordChar_iff {comments : Bool} {c : Char} :
    isWordChar comments c = true ↔
      (Text.isBlank c = false ∧ c ≠ '(' ∧ c ≠ ')') ∧ (comments = true → c ≠ ';') := by
  cases comments <;> simp [isWordChar, startsComment, and_assoc]

/-- After an open literal there is nothing. -/
theorem Lexeme.Stands.eq_nil_of_open {comments : Bool} {lexeme : Lexeme} {rest : List Char}
    (h : lexeme.Stands comments rest) (hopen : lexeme.closed = false) : rest = [] := by
  cases h with
  | openString => rfl
  | opening | closing | quote | string | word => exact Bool.noConfusion hopen

/-! ## Places -/

/-- What a character comes after, if comments are on. -/
inductive Place where
  | gap
  | word
  | string
  | comment
  deriving DecidableEq, Repr

namespace Place

/-- The place after one more character. -/
def next : Place → Char → Place
  | gap, c =>
    if c = '"' then string
    else if c = ';' then comment
    else if Text.isBlank c ∨ c = '(' ∨ c = ')' ∨ c = '\'' then gap
    else word
  | word, c =>
    if c = ';' then comment else if Text.isBlank c ∨ c = '(' ∨ c = ')' then gap else word
  | string, c => if c = '"' then gap else string
  | comment, c => if c = '\n' then gap else comment

/-- The place at the end of a text. -/
def after (text : List Char) : Place := text.foldl next gap

theorem after_append (before text : List Char) :
    after (before ++ text) = text.foldl next (after before) := List.foldl_append

/-- The place is as good as a gap for the text that follows it. -/
structure Ready (place : Place) (rest : List Char) : Prop where
  ne_string : place ≠ string
  next_eq : ∀ c, rest.head? = some c → place.next c = gap.next c

theorem ready_gap (rest : List Char) : Ready gap rest := ⟨nofun, fun _ _ => rfl⟩

theorem next_gap_blank {c : Char} (h : Text.isBlank c = true) : gap.next c = gap := by
  have hdouble : c ≠ '"' := by rintro rfl; exact absurd h (by decide)
  have hsemicolon : c ≠ ';' := by rintro rfl; exact absurd h (by decide)
  rw [next, if_neg hdouble, if_neg hsemicolon, if_pos (.inl h)]

theorem next_word {c : Char} (h : isWordChar true c = true) : word.next c = word := by
  obtain ⟨⟨hblank, hopening, hclosing⟩, hsemicolon⟩ := isWordChar_iff.mp h
  rw [next, if_neg (hsemicolon rfl), if_neg (by simp [hblank, hopening, hclosing])]

theorem next_gap_word {c : Char} (h : isWordChar true c = true) (hdouble : c ≠ '"')
    (hquote : c ≠ '\'') : gap.next c = word := by
  obtain ⟨⟨hblank, hopening, hclosing⟩, hsemicolon⟩ := isWordChar_iff.mp h
  rw [next, if_neg hdouble, if_neg (hsemicolon rfl),
    if_neg (by simp [hblank, hopening, hclosing, hquote])]

/-- What ends a word is taken as it is in a gap. -/
theorem next_word_of_ends {c : Char} (h : isWordChar true c = false) :
    word.next c = gap.next c := by
  have hdouble : c ≠ '"' := by rintro rfl; exact absurd h (by decide)
  by_cases hsemicolon : c = ';'
  · rw [hsemicolon]
    rfl
  have hends : Text.isBlank c = true ∨ c = '(' ∨ c = ')' := by
    by_contra hnone
    have hkept : Text.isBlank c = false ∧ c ≠ '(' ∧ c ≠ ')' := by simpa using hnone
    rw [isWordChar_iff.mpr ⟨hkept, fun _ => hsemicolon⟩] at h
    exact Bool.noConfusion h
  have hgap : Text.isBlank c = true ∨ c = '(' ∨ c = ')' ∨ c = '\'' :=
    hends.imp_right (Or.imp_right .inl)
  rw [next, next, if_neg hsemicolon, if_pos hends, if_neg hdouble, if_neg hsemicolon, if_pos hgap]

theorem foldl_stay {place : Place} {text : List Char} (h : ∀ c ∈ text, place.next c = place) :
    text.foldl next place = place := by
  induction text with
  | nil => rfl
  | cons c text ih =>
    obtain ⟨hc, htext⟩ := List.forall_mem_cons.mp h
    rw [List.foldl_cons, hc, ih htext]

theorem foldl_comment {body : List Char} (h : '\n' ∉ body) :
    body.foldl next comment = comment :=
  foldl_stay fun _ hc => if_neg (ne_of_mem_of_not_mem hc h)

theorem foldl_string {content : List Char} (h : '"' ∉ content) :
    content.foldl next string = string :=
  foldl_stay fun _ hc => if_neg (ne_of_mem_of_not_mem hc h)

/-- A word starts where its first character does. -/
theorem foldl_isWord {text : List Char} (h : IsWord true text) : text.foldl next gap = word := by
  obtain ⟨c, more, rfl⟩ := List.exists_cons_of_ne_nil h.ne_nil
  obtain ⟨hc, hmore⟩ := List.forall_mem_cons.mp h.chars
  obtain ⟨hdouble, hquote⟩ := h.head c rfl
  rw [List.foldl_cons, next_gap_word hc hdouble hquote,
    foldl_stay fun d hd => next_word (hmore d hd)]

/-- After the first character it makes no difference that the place was not a gap. -/
theorem Ready.foldl_eq {place : Place} {run rest : List Char} (h : place.Ready (run ++ rest))
    (hne : run ≠ []) : run.foldl next place = run.foldl next gap := by
  obtain ⟨c, more, rfl⟩ := List.exists_cons_of_ne_nil hne
  rw [List.foldl_cons, List.foldl_cons, h.next_eq c rfl]

/-- A gap is left as it was entered. -/
theorem Ready.gap_append {place : Place} {gap rest : List Char} (hgap : Gap true rest gap)
    (h : place.Ready (gap ++ rest)) : (gap.foldl next place).Ready rest := by
  induction hgap generalizing place with
  | nothing => exact h
  | @blank c gap hc _ ih =>
    have hnext : place.next c = .gap := (h.next_eq c rfl).trans (next_gap_blank hc)
    rw [List.foldl_cons, hnext]
    exact ih (ready_gap _)
  | @comment body gap _ hbody hend _ ih =>
    have hnext : place.next ';' = .comment := h.next_eq ';' rfl
    rw [List.foldl_cons, List.foldl_append, hnext, foldl_comment hbody]
    refine ih ⟨nofun, fun c hc => ?_⟩
    rw [hend c hc]
    rfl

/-- After a lexeme that is closed there is as good as a gap, and otherwise a literal is open. -/
theorem Ready.lexeme_append {place : Place} {lexeme : Lexeme} {rest : List Char}
    (hlexeme : lexeme.Stands true rest) (h : place.Ready (lexeme.source ++ rest)) :
    (lexeme.closed = true → (lexeme.source.foldl next place).Ready rest) ∧
      (lexeme.closed = false → lexeme.source.foldl next place = string) := by
  rw [h.foldl_eq hlexeme.source_ne_nil]
  cases hlexeme with
  | opening | closing | quote => exact ⟨fun _ => ready_gap rest, nofun⟩
  | @string content hcontent =>
    have hafter : (Lexeme.source ⟨.string content, true⟩).foldl next gap = gap := by
      rw [source_string, List.foldl_cons, List.foldl_append]
      show ['"'].foldl next (content.toList.foldl next string) = gap
      rw [foldl_string hcontent]
      rfl
    rw [hafter]
    exact ⟨fun _ => ready_gap rest, nofun⟩
  | openString hcontent => exact ⟨nofun, fun _ => foldl_string hcontent⟩
  | @word text hword rest hrest =>
    have hafter : (Lexeme.source ⟨.word text, true⟩).foldl next gap = word := foldl_isWord hword
    rw [hafter]
    exact ⟨fun _ => ⟨nofun, fun c hc => next_word_of_ends (hrest c hc)⟩, nofun⟩

/-- A literal is open at the end of a text exactly if one of its lexemes is. -/
theorem foldl_eq_string_iff {place : Place} {text : List Char} {found : List Lexeme}
    (hcut : Cut true text found) (h : place.Ready text) :
    text.foldl next place = string ↔ ∃ lexeme ∈ found, lexeme.closed = false := by
  induction hcut generalizing place with
  | @gap text hgap =>
    rw [← List.append_nil text] at h
    simpa using (h.gap_append hgap).ne_string
  | @lexeme gap rest first more hgap hlexeme hmore ih =>
    obtain ⟨hclosed, hopen⟩ := Ready.lexeme_append hlexeme (h.gap_append hgap)
    rw [List.foldl_append, List.foldl_append, List.exists_mem_cons_iff]
    cases hfirst : first.closed with
    | true => simpa using ih (hclosed hfirst)
    | false =>
      obtain rfl := hlexeme.eq_nil_of_open hfirst
      simpa using hopen hfirst

end Place

/-- The places agree with the lexer about what stands in a string literal. -/
theorem inLiteral_iff (before : List Char) :
    inLiteral before = true ↔ Place.after before = .string := by
  rw [Place.after, Place.foldl_eq_string_iff (cut_lexemes before) (Place.ready_gap before)]
  show ((lexemes true (String.ofList before).toList).findIdx? _).isSome = true ↔ _
  rw [String.toList_ofList, List.findIdx?_isSome, List.any_eq_true]
  simp

/-! ## What is kept of a cut text -/

theorem inLiteral_eq_false {before rest : List Char} (h : (Place.after before).Ready rest) :
    inLiteral before = false := by
  rw [Bool.eq_false_iff, ne_eq, inLiteral_iff]
  exact h.ne_string

/-- Of a gap there are blanks left. -/
theorem Gap.withoutComments_append {before gap rest : List Char} (hgap : Gap true rest gap)
    (h : (Place.after before).Ready (gap ++ rest)) :
    ∃ blanks, Text.IsBlanks blanks ∧
      withoutComments before (gap ++ rest) = blanks ++ withoutComments (before ++ gap) rest := by
  induction hgap generalizing before with
  | nothing => exact ⟨[], fun _ h => absurd h List.not_mem_nil, by simp⟩
  | @blank c gap hc hgap ih =>
    have hsemicolon : c ≠ ';' := by rintro rfl; exact absurd hc (by decide)
    have hready : (Place.after (before ++ [c])).Ready (gap ++ rest) := by
      rw [Place.after_append]
      exact Place.Ready.gap_append (.blank hc .nothing) h
    obtain ⟨blanks, hblanks, heq⟩ := ih hready
    refine ⟨c :: blanks, List.forall_mem_cons.mpr ⟨hc, hblanks⟩, ?_⟩
    rw [List.cons_append, withoutComments_keep (absurd · hsemicolon), heq, List.append_assoc]
    rfl
  | @comment body gap hcomments hbody hend hgap ih =>
    have hready : (Place.after (before ++ ';' :: body)).Ready (gap ++ rest) := by
      have hcomment : Gap true (gap ++ rest) (';' :: (body ++ [])) :=
        .comment rfl hbody hend .nothing
      rw [List.append_nil] at hcomment
      rw [Place.after_append]
      exact Place.Ready.gap_append hcomment (by simpa using h)
    obtain ⟨blanks, hblanks, heq⟩ := ih hready
    refine ⟨' ' :: blanks, List.forall_mem_cons.mpr ⟨by decide, hblanks⟩, ?_⟩
    rw [List.cons_append, List.append_assoc,
      withoutComments_comment (inLiteral_eq_false h) hbody hend, heq, List.append_assoc]
    rfl

/-- A literal is kept up to its second quote. -/
theorem withoutComments_literal {before content : List Char} (hcontent : '"' ∉ content)
    (hopen : (Place.after before).next '"' = .string) (rest : List Char) :
    withoutComments before ('"' :: (content ++ rest)) =
      '"' :: (content ++ withoutComments (before ++ '"' :: content) rest) := by
  have hinside : ∀ i, inLiteral (before ++ ['"'] ++ content.take i) = true := fun i => by
    have hpart : '"' ∉ content.take i := fun hmem => hcontent (List.mem_of_mem_take hmem)
    rw [inLiteral_iff, Place.after_append, Place.after_append]
    show (content.take i).foldl Place.next ((Place.after before).next '"') = _
    rw [hopen, Place.foldl_string hpart]
  rw [withoutComments_keep (absurd · (by decide)), withoutComments_append fun i _ => hinside i,
    List.append_assoc]
  rfl

/-- A lexeme is kept whole. -/
theorem Lexeme.Stands.withoutComments_append {before rest : List Char} {lexeme : Lexeme}
    (hlexeme : lexeme.Stands true rest) (h : (Place.after before).Ready (lexeme.source ++ rest)) :
    withoutComments before (lexeme.source ++ rest) =
      lexeme.source ++ withoutComments (before ++ lexeme.source) rest := by
  cases hlexeme with
  | opening | closing | quote => exact withoutComments_keep (absurd · (by decide)) rest
  | @string content hcontent =>
    rw [source_string] at h ⊢
    have hopen : (Place.after before).next '"' = .string := h.next_eq '"' rfl
    rw [List.cons_append, List.append_assoc, withoutComments_literal hcontent hopen,
      List.singleton_append, withoutComments_keep (absurd · (by decide))]
    simp
  | @openString content hcontent =>
    have hopen : (Place.after before).next '"' = .string := h.next_eq '"' rfl
    exact withoutComments_literal hcontent hopen []
  | @word text hword =>
    refine Token.withoutComments_append (fun i hi => ?_) rest
    have hchar := hword.chars ';' (List.mem_of_getElem? hi)
    exact absurd hchar (by decide)

/-- What is left of a text ends a word if the text did. -/
theorem EndsWord.withoutComments {before rest : List Char} (h : EndsWord true rest)
    (hout : inLiteral before = false) : EndsWord false (withoutComments before rest) := by
  cases rest with
  | nil =>
    rw [withoutComments_nil]
    nofun
  | cons c rest =>
    intro d hd
    by_cases hc : c = ';'
    · rw [Token.withoutComments, if_pos ⟨hc, hout⟩] at hd
      obtain rfl : ' ' = d := Option.some.inj hd
      decide
    · rw [withoutComments_keep (absurd · hc)] at hd
      obtain rfl : c = d := Option.some.inj hd
      simpa [isWordChar, startsComment, hc] using h c rfl

/-- A lexeme stands where it stood. -/
theorem Lexeme.Stands.withoutComments {before rest : List Char} {lexeme : Lexeme}
    (hlexeme : lexeme.Stands true rest) (hout : lexeme.closed = true → inLiteral before = false) :
    lexeme.Stands false (withoutComments before rest) := by
  cases hlexeme with
  | opening => exact .opening _
  | closing => exact .closing _
  | quote => exact .quote _
  | string hcontent => exact .string hcontent _
  | openString hcontent =>
    rw [withoutComments_nil]
    exact .openString hcontent
  | word hword hrest =>
    refine .word ⟨hword.ne_nil, fun c hc => ?_, hword.head⟩ (hrest.withoutComments (hout rfl))
    exact isWordChar_iff.mpr ⟨(isWordChar_iff.mp (hword.chars c hc)).1, nofun⟩

/-- What is left of a text is cut like the text. -/
theorem Cut.withoutComments {before text : List Char} {found : List Lexeme}
    (hcut : Cut true text found) (h : (Place.after before).Ready text) :
    Cut false (withoutComments before text) found := by
  induction hcut generalizing before with
  | @gap text hgap =>
    rw [← List.append_nil text] at h
    obtain ⟨blanks, hblanks, heq⟩ := hgap.withoutComments_append h
    rw [List.append_nil, withoutComments_nil, List.append_nil] at heq
    rw [heq]
    exact .gap (.of_isBlanks hblanks _)
  | @lexeme gap rest first more hgap hlexeme hmore ih =>
    obtain ⟨blanks, hblanks, heq⟩ := hgap.withoutComments_append h
    have hsource : (Place.after (before ++ gap)).Ready (first.source ++ rest) := by
      rw [Place.after_append]
      exact Place.Ready.gap_append hgap h
    obtain ⟨hclosed, -⟩ := Place.Ready.lexeme_append hlexeme hsource
    rw [← Place.after_append] at hclosed
    rw [heq, hlexeme.withoutComments_append hsource]
    have hstands := hlexeme.withoutComments fun hfirst => inLiteral_eq_false (hclosed hfirst)
    refine .lexeme (.of_isBlanks hblanks _) hstands ?_
    cases hfirst : first.closed with
    | true => exact ih (hclosed hfirst)
    | false =>
      obtain rfl := hlexeme.eq_nil_of_open hfirst
      obtain rfl : [] = more := lexemes_nil.symm.trans hmore.lexemes_eq
      rw [withoutComments_nil]
      exact .gap .nothing

namespace Stream

/-- A text with its comments on has the tokens of the text in which each comment is one space, with
comments off, and the same string literal is unterminated.  So the setting makes no difference to a
text in which every semicolon stands in a string literal. -/
theorem ofText_withoutComments (text : String) :
    ofText true text = ofText false (String.ofList (withoutComments [] text.toList)) ∧
    ((∀ i, text.toList[i]? = some ';' → inLiteral (text.toList.take i) = true) →
      ofText true text = ofText false text) := by
  have hall : ofText true text = ofText false (String.ofList (withoutComments [] text.toList)) := by
    have hcut := @Cut.withoutComments [] _ _ (cut_lexemes text.toList) (Place.ready_gap _)
    unfold ofText
    simp only [String.toList_ofList, hcut.lexemes_eq]
  refine ⟨hall, fun h => ?_⟩
  have hsame := @withoutComments_append [] text.toList (by simpa using h) []
  rw [List.append_nil, withoutComments_nil, List.append_nil] at hsame
  rw [hall, hsame, String.ofList_toList]

/-- Literals after a quote mark, after a word with a double quote in it, and up to the end of the
text. -/
theorem ofText_withoutComments_literals :
    (∀ i, "(f '\"a;b\" x\"y \"c; d".toList[i]? = some ';' →
      inLiteral ("(f '\"a;b\" x\"y \"c; d".toList.take i) = true) ∧
    ofText true "(f '\"a;b\" x\"y \"c; d" = ofText false "(f '\"a;b\" x\"y \"c; d" := by
  have h : ∀ i, "(f '\"a;b\" x\"y \"c; d".toList[i]? = some ';' →
      inLiteral ("(f '\"a;b\" x\"y \"c; d".toList.take i) = true := by
    intro i hi
    rw [inLiteral_iff]
    obtain ⟨hlt, -⟩ := List.getElem?_eq_some_iff.mp hi
    revert hi
    revert i
    decide
  exact ⟨h, (ofText_withoutComments _).2 h⟩

end Stream

end DynLisp.Token
