/-
  Proofs/RoundTrip.lean --- what is printed reads back.

  WHAT THIS FILE IS FOR.  A datum that was read is printed, and the text is read
  again.  It holds one form and nothing else, without a fault and within the limit
  on nesting, and what is read prints as the same text.  But for its doubles it is
  the datum itself.

  THE STEPS.  A datum that was read is `Readable` with as much room as the reader
  had (`readable_of_form`).  The text of a readable datum is cut into tokens that
  are read, with the same room, as `Datum.reread` (`Readable.spelled`), and this
  datum has the same text (`Datum.written_reread`).
-/
import DynLisp.Form
import DynLisp.Proofs.Numerals
import DynLisp.Proofs.Spelling
import DynLisp.Proofs.StackReader

set_option autoImplicit false

namespace DynLisp

open Token

namespace Datum

/-! ## The datum that is read again -/

/-- A datum with every number read again from its text. -/
def reread : Datum → Datum
  | number n => ofWord (String.ofList n.written)
  | cons first rest => cons first.reread rest.reread
  | nil => nil
  | string text => string text
  | symbol name => symbol name

/-- There is a double in the datum. -/
def HasDouble : Datum → Prop
  | number (.double _) => True
  | cons first rest => first.HasDouble ∨ rest.HasDouble
  | number (.integer _) | nil | string _ | symbol _ => False

theorem reread_eq_self {datum : Datum} (h : ¬ datum.HasDouble) : datum.reread = datum := by
  induction datum with
  | nil | string | symbol => rfl
  | number n =>
    cases n with
    | integer n => exact ofWord_written_integer n
    | double x => exact absurd trivial h
  | cons first rest ihfirst ihrest =>
    rw [reread, ihfirst fun hd => h (.inl hd), ihrest fun hd => h (.inr hd)]

theorem reread_ofList (items : List Datum) :
    (ofList items).reread = ofList (items.map reread) := by
  induction items with
  | nil => rfl
  | cons item more ih => rw [ofList, reread, ih, List.map_cons, ofList]

theorem written_reread_number (n : Number) : (number n).reread.written = n.written := by
  cases n with
  | integer n => rw [reread, ofWord_written_integer, written]
  | double x => exact written_ofWord_double x

/-- A letter of the name of the quoting form is in no number. -/
theorem written_ne_quoteName (n : Number) : n.written ≠ quoteName.toList := by
  intro heq
  have hletter : 'q' ∈ n.written := heq ▸ (by decide : 'q' ∈ quoteName.toList)
  exact absurd (Number.isTextChar_written n 'q' hletter) (by decide)

/-- What a number is read again as is a number or a symbol. -/
theorem reread_number_cases (n : Number) :
    (∃ m, (number n).reread = number m) ∨
      (number n).reread = symbol (String.ofList n.written) := ofWord_cases _

theorem eq_symbol_of_reread {datum : Datum} (h : datum.reread = symbol quoteName) :
    datum = symbol quoteName := by
  cases datum with
  | nil | string | cons => simp [reread] at h
  | symbol name => exact h
  | number n =>
    rcases reread_number_cases n with ⟨m, hnumber⟩ | hsymbol
    · simp [hnumber] at h
    · rw [hsymbol, symbol.injEq] at h
      exact absurd (String.toList_ofList.symm.trans (congrArg String.toList h))
        (written_ne_quoteName n)

theorem eq_nil_of_reread {datum : Datum} (h : datum.reread = nil) : datum = nil := by
  cases datum with
  | nil => rfl
  | string | cons | symbol => simp [reread] at h
  | number n => rcases reread_number_cases n with ⟨m, hword⟩ | hword <;> simp [hword] at h

theorem eq_cons_of_reread {datum first rest : Datum} (h : datum.reread = cons first rest) :
    ∃ first' rest', datum = cons first' rest' ∧ rest'.reread = rest := by
  cases datum with
  | nil | string | symbol => simp [reread] at h
  | cons first' rest' => exact ⟨first', rest', rfl, (cons.inj h).2⟩
  | number n => rcases reread_number_cases n with ⟨m, hword⟩ | hword <;> simp [hword] at h

/-! ## The texts of lists -/

theorem ofList_eq_singleton {items : List Datum} {item : Datum} (h : ofList items = cons item nil) :
    items = [item] := by
  match items with
  | [] => simp [ofList] at h
  | [_] => rw [(cons.inj h).1]
  | _ :: _ :: _ => simp [ofList] at h

/-- The two halves of a cell make a form that quotes. -/
def Quotes (first rest : Datum) : Prop := first = symbol quoteName ∧ ∃ datum, rest = cons datum nil

theorem written_quoted (datum : Datum) : (quoted datum).written = '\'' :: datum.written := by
  simp [quoted, ofList, written]

/-- A cell that does not quote is written between parentheses. -/
theorem written_cons {first rest : Datum} (h : ¬ Quotes first rest) :
    (cons first rest).written = '(' :: (first.written ++ rest.writtenEnd) := by
  conv_lhs => rw [written.eq_def]
  split
  case h_5 name datum heq =>
    obtain ⟨rfl, rfl⟩ := cons.inj heq
    have hname : name ≠ quoteName := fun heq => h ⟨congrArg symbol heq, datum, rfl⟩
    exact if_neg hname
  case h_6 heq =>
    obtain ⟨rfl, rfl⟩ := cons.inj heq
    rfl
  all_goals contradiction

/-- A cell quotes if it does so when it is read again. -/
theorem Quotes.of_reread {first rest : Datum} (h : Quotes first.reread rest.reread) :
    Quotes first rest := by
  obtain ⟨hfirst, datum, hrest⟩ := h
  obtain ⟨datum', last, rfl, hlast⟩ := eq_cons_of_reread hrest
  exact ⟨eq_symbol_of_reread hfirst, datum', by rw [eq_nil_of_reread hlast]⟩

/-- What is read again is printed as before. -/
theorem written_reread (datum : Datum) :
    datum.reread.written = datum.written ∧ datum.reread.writtenEnd = datum.writtenEnd := by
  induction datum with
  | nil | string | symbol => exact ⟨rfl, rfl⟩
  | number n =>
    have hwritten := written_reread_number n
    refine ⟨hwritten, ?_⟩
    rcases reread_number_cases n with ⟨m, hword⟩ | hword <;> rw [hword] at hwritten ⊢ <;>
      simp only [written] at hwritten <;> simp only [writtenEnd, hwritten]
  | cons first rest ihfirst ihrest =>
    constructor
    · by_cases hquotes : Quotes first rest
      · obtain ⟨rfl, datum, rfl⟩ := hquotes
        have hdatum : datum.reread.written = datum.written := by
          simpa [reread, writtenEnd] using ihrest.2
        show (quoted datum.reread).written = (quoted datum).written
        rw [written_quoted, written_quoted, hdatum]
      · rw [reread, written_cons hquotes, written_cons (mt Quotes.of_reread hquotes), ihfirst.1,
          ihrest.2]
    · rw [reread, writtenEnd, writtenEnd, ihfirst.1, ihrest.2]

end Datum

namespace Reader

/-! ## What is read -/

/-- A datum that can be printed and read again where forms may be nested less than `room` deep. -/
inductive Readable (comments : Bool) : Nat → Datum → Prop where
  | number (room : Nat) (n : Number) : Readable comments (room + 1) (.number n)
  | string (room : Nat) {text : String} (h : '"' ∉ text.toList) :
    Readable comments (room + 1) (.string text)
  | symbol (room : Nat) {name : String} (hword : IsWord comments name.toList)
      (hname : Datum.ofWord name = .symbol name) : Readable comments (room + 1) (.symbol name)
  | list {room : Nat} {items : List Datum} (h : ∀ item ∈ items, Readable comments room item) :
    Readable comments (room + 1) (.ofList items)

variable {comments : Bool}

theorem readable_ofWord (room : Nat) {word : String} (h : IsWord comments word.toList) :
    Readable comments (room + 1) (Datum.ofWord word) := by
  rcases Datum.ofWord_cases word with ⟨n, hword⟩ | hword
  · rw [hword]
    exact .number room n
  · rw [hword]
    exact .symbol room h hword

/-- The name of the quoting form is a word for its own symbol. -/
theorem readable_quoteName (room : Nat) :
    Readable comments (room + 1) (.symbol Datum.quoteName) := by
  have hchars : Datum.quoteName.toList.all (isWordChar comments) = true := by
    cases comments <;> decide
  have hhead : Datum.quoteName.toList.head? = some 'q' := by decide
  refine .symbol room ⟨by decide, List.all_eq_true.mp hchars, fun c hc => ?_⟩ rfl
  obtain rfl := Option.some.inj (hhead.symm.trans hc)
  decide

/-- A form that quotes is a list of two items. -/
theorem Readable.quoted {room : Nat} {datum : Datum} (h : Readable comments room datum) :
    Readable comments (room + 1) (Datum.quoted datum) := by
  refine .list fun item hitem => ?_
  rcases List.mem_cons.mp hitem with rfl | hitem
  · cases h <;> exact readable_quoteName _
  · rw [List.mem_singleton.mp hitem]
    exact h

/-- A list is readable with more room than its items were read with. -/
theorem readable_of_items {form : (tokens : List Token) → Reading (tokens.length - 1)} {room : Nat}
    (hrest : ∀ tokens, (form tokens).rest <:+ tokens)
    (hform : ∀ tokens datum, (∀ token ∈ tokens, token.Legible comments) →
      (form tokens).outcome = .ok datum → Readable comments room datum)
    {read : List Datum} {tokens : List Token} (hread : ∀ item ∈ read, Readable comments room item)
    (htokens : ∀ token ∈ tokens, token.Legible comments) {datum : Datum}
    (h : (items form read tokens).outcome = .ok datum) : Readable comments (room + 1) datum := by
  fun_induction items form read tokens with
  | case1 => simp [Reading.outcome] at h
  | case2 read rest =>
    obtain rfl : Datum.ofList read.reverse = datum := Except.ok.inj h
    exact .list fun item hitem => hread item (List.mem_reverse.mp hitem)
  | case3 => simp [Reading.outcome] at h
  | case4 read token more _ item rest fits hitem ih =>
    have hsuffix := hrest (token :: more)
    have hnew := hform (token :: more) item htokens (by rw [hitem, Reading.outcome])
    rw [hitem] at hsuffix
    rw [Reading.outcome_widen] at h
    refine ih ?_ (fun token htoken => htokens token (hsuffix.subset htoken)) h
    intro other hother
    rcases List.mem_cons.mp hother with rfl | hother
    · exact hnew
    · exact hread other hother

/-- What is read from legible tokens is readable with the room that there was. -/
theorem readable_of_form (room : Nat) {tokens : List Token} {datum : Datum}
    (htokens : ∀ token ∈ tokens, token.Legible comments)
    (h : (form room tokens).outcome = .ok datum) : Readable comments room datum := by
  induction room generalizing tokens datum with
  | zero => simp [form, Reading.outcome] at h
  | succ room ih =>
    cases tokens with
    | nil =>
      obtain rfl : Datum.nil = datum := Except.ok.inj h
      exact @Readable.list comments room [] (by simp)
    | cons token rest =>
      have htoken := htokens token List.mem_cons_self
      have hrest : ∀ other ∈ rest, other.Legible comments :=
        fun other hother => htokens other (List.mem_cons_of_mem token hother)
      cases token with
      | closing => simp [form, Reading.outcome] at h
      | string content =>
        obtain rfl : Datum.string content = datum := Except.ok.inj h
        exact .string room htoken
      | word text =>
        obtain rfl : Datum.ofWord text = datum := Except.ok.inj h
        exact readable_ofWord room htoken
      | opening =>
        rw [form] at h
        exact readable_of_items (rest_form_suffix room) (fun _ _ => ih) (by simp) hrest h
      | quote =>
        unfold form at h
        split at h
        · rename_i inner left fits hinner
          obtain rfl : Datum.quoted inner = datum := Except.ok.inj h
          exact (ih hrest (by rw [hinner, Reading.outcome])).quoted
        · simp [Reading.outcome] at h

/-! ## What is printed -/

/-- A read gives a datum and leaves some tokens. -/
def Reading.Gives {bound : Nat} (reading : Reading bound) (datum : Datum) (rest : List Token) :
    Prop := ∃ fits, reading = .done datum rest fits

/-- The text of a datum is cut into some tokens, and they are read again. -/
structure SpelledBy (comments : Bool) (room : Nat) (datum : Datum) (tokens : List Token) :
    Prop where
  starts : ∃ token more, tokens = token :: more ∧ token ≠ .closing
  cut : ∀ rest, EndsWord comments rest → lexemes comments (datum.written ++ rest) =
    tokens.map (⟨·, true⟩) ++ lexemes comments rest
  read : ∀ rest, (form room (tokens ++ rest)).Gives datum.reread rest

/-- The same, of the text of a list after some first items. -/
structure EndSpelledBy (comments : Bool) (room : Nat) (items : List Datum) (tokens : List Token) :
    Prop where
  cut : ∀ rest, lexemes comments ((Datum.ofList items).writtenEnd ++ rest) =
    tokens.map (⟨·, true⟩) ++ lexemes comments rest
  read : ∀ read rest, (Reader.items (form room) read (tokens ++ rest)).Gives
    (Datum.ofList (read.reverse ++ items.map Datum.reread)) rest

/-- What comes after an item ends its last word. -/
theorem endsWord_writtenEnd (datum : Datum) (rest : List Char) :
    EndsWord comments (datum.writtenEnd ++ rest) := by
  have hspace : isWordChar comments ' ' = false := by cases comments <;> decide
  have hclosing : isWordChar comments ')' = false := by cases comments <;> decide
  intro c hc
  cases datum <;> obtain rfl := Option.some.inj hc <;> assumption

/-- A character of a number's text stands in a word, and starts nothing else. -/
theorem isWordChar_of_isTextChar {c : Char} (h : Number.isTextChar c = true) :
    isWordChar comments c = true ∧ c ≠ '"' ∧ c ≠ '\'' := by
  have hall : ∀ n < 128, Number.isTextChar (Char.ofNat n) = true →
      isWordChar comments (Char.ofNat n) = true ∧ Char.ofNat n ≠ '"' ∧ Char.ofNat n ≠ '\'' := by
    cases comments <;> decide
  have hlt := Number.toNat_lt_of_isTextChar h
  rw [← Char.ofNat_toNat c] at h ⊢
  exact hall c.toNat hlt h

/-- A number is printed as a word, also one that is infinite or no number. -/
theorem isWord_written (n : Number) : IsWord comments n.written where
  ne_nil := n.written_ne_nil
  chars c hc := (isWordChar_of_isTextChar (n.isTextChar_written c hc)).1
  head c hc := (@isWordChar_of_isTextChar comments c
    (n.isTextChar_written c (List.mem_of_head? hc))).2

theorem SpelledBy.number (room : Nat) (n : Number) :
    SpelledBy comments (room + 1) (.number n) [.word (String.ofList n.written)] where
  starts := ⟨_, _, rfl, by simp⟩
  cut _ hrest := lexemes_word (isWord_written n) hrest
  read _ := ⟨by simp, by rw [Datum.reread]; rfl⟩

theorem SpelledBy.string (room : Nat) {text : String} (h : '"' ∉ text.toList) :
    SpelledBy comments (room + 1) (.string text) [.string text] where
  starts := ⟨_, _, rfl, by simp⟩
  cut rest _ := by
    have hcut := @lexemes_string comments _ h rest
    rw [String.ofList_toList] at hcut
    rw [Datum.written, List.cons_append, List.append_assoc]
    exact hcut
  read _ := ⟨by simp, rfl⟩

theorem SpelledBy.symbol (room : Nat) {name : String} (hword : IsWord comments name.toList)
    (hname : Datum.ofWord name = .symbol name) :
    SpelledBy comments (room + 1) (.symbol name) [.word name] where
  starts := ⟨_, _, rfl, by simp⟩
  cut _ hrest := by
    have hcut := lexemes_word hword hrest
    rwa [String.ofList_toList] at hcut
  read _ := ⟨by simp, by rw [Datum.reread, ← hname]; rfl⟩

/-- A datum after a quote mark. -/
theorem gives_quoted {room : Nat} {datum : Datum} {tokens rest : List Token}
    (h : (form room tokens).Gives datum rest) :
    (form (room + 1) (.quote :: tokens)).Gives (Datum.quoted datum) rest := by
  obtain ⟨fits, hread⟩ := h
  rw [form, hread]
  exact ⟨_, rfl⟩

/-- An item of a list, and then what comes after it. -/
theorem gives_items {room : Nat} {read : List Datum} {token : Token} {more left rest : List Token}
    {item datum : Datum} (hne : token ≠ .closing)
    (hitem : (form room (token :: more)).Gives item left)
    (h : (items (form room) (item :: read) left).Gives datum rest) :
    (items (form room) read (token :: more)).Gives datum rest := by
  obtain ⟨fits, hread⟩ := hitem
  obtain ⟨fits', hmore⟩ := h
  rw [items, hread]
  · dsimp only
    rw [hmore]
    exact ⟨_, rfl⟩
  · exact hne

theorem SpelledBy.quoted {room : Nat} {datum : Datum} {tokens : List Token}
    (h : SpelledBy comments room datum tokens) :
    SpelledBy comments (room + 1) (Datum.quoted datum) (.quote :: tokens) where
  starts := ⟨_, _, rfl, by simp⟩
  cut rest hrest := by
    rw [Datum.written_quoted, List.cons_append, lexemes_quote, h.cut rest hrest]
    rfl
  read rest := gives_quoted (h.read rest)

theorem EndSpelledBy.nil (room : Nat) : EndSpelledBy comments room [] [.closing] where
  cut := lexemes_closing
  read read rest := by
    rw [List.singleton_append, items, List.map_nil, List.append_nil]
    exact ⟨_, rfl⟩

theorem EndSpelledBy.cons {room : Nat} {item : Datum} {more : List Datum}
    {tokens after : List Token} (hitem : SpelledBy comments room item tokens)
    (hmore : EndSpelledBy comments room more after) :
    EndSpelledBy comments room (item :: more) (tokens ++ after) where
  cut rest := by
    rw [Datum.ofList, Datum.writtenEnd, List.cons_append, lexemes_space, List.append_assoc,
      hitem.cut _ (endsWord_writtenEnd _ rest), hmore.cut rest, List.map_append, List.append_assoc]
  read read rest := by
    obtain ⟨token, others, rfl, hne⟩ := hitem.starts
    have hread := hitem.read (after ++ rest)
    have hrest := hmore.read (item.reread :: read) rest
    rw [List.reverse_cons, List.append_assoc] at hrest
    rw [List.append_assoc]
    exact gives_items hne hread hrest

/-- A list that does not quote. -/
theorem SpelledBy.list {room : Nat} {items : List Datum} {tokens : List Token}
    (hquotes : ∀ datum, items ≠ [.symbol Datum.quoteName, datum])
    (h : EndSpelledBy comments room items tokens) :
    SpelledBy comments (room + 1) (.ofList items) (.opening :: tokens) where
  starts := ⟨_, _, rfl, by simp⟩
  cut rest _ := by
    have hcut := h.cut rest
    cases items with
    | nil => exact (lexemes_opening _).trans (congrArg _ hcut)
    | cons first more =>
      have hnot : ¬ Datum.Quotes first (.ofList more) := by
        rintro ⟨rfl, datum, hmore⟩
        exact hquotes datum (congrArg _ (Datum.ofList_eq_singleton hmore))
      rw [Datum.ofList, Datum.writtenEnd, List.cons_append, lexemes_space] at hcut
      rw [Datum.ofList, Datum.written_cons hnot, List.cons_append, lexemes_opening, hcut]
      rfl
  read rest := by
    rw [Datum.reread_ofList]
    exact h.read [] rest

/-- Items that are spelled each by some tokens are spelled as a list by all of them. -/
theorem exists_endSpelledBy {room : Nat} {items : List Datum}
    (h : ∀ item ∈ items, ∃ tokens, SpelledBy comments room item tokens) :
    ∃ tokens, EndSpelledBy comments room items tokens := by
  induction items with
  | nil => exact ⟨_, .nil room⟩
  | cons item more ih =>
    obtain ⟨tokens, hitem⟩ := h item List.mem_cons_self
    obtain ⟨after, hmore⟩ := ih fun other hother => h other (List.mem_cons_of_mem item hother)
    exact ⟨_, .cons hitem hmore⟩

/-- What is readable reads back. -/
theorem Readable.spelled {room : Nat} {datum : Datum} (h : Readable comments room datum) :
    ∃ tokens, SpelledBy comments room datum tokens := by
  induction h with
  | number room n => exact ⟨_, .number room n⟩
  | string room h => exact ⟨_, .string room h⟩
  | symbol room hword hname => exact ⟨_, .symbol room hword hname⟩
  | @list room items _ ih =>
    by_cases hquotes : ∃ datum, items = [.symbol Datum.quoteName, datum]
    · obtain ⟨datum, rfl⟩ := hquotes
      obtain ⟨tokens, hdatum⟩ := ih datum (by simp)
      exact ⟨_, hdatum.quoted⟩
    · obtain ⟨tokens, hitems⟩ := exists_endSpelledBy ih
      exact ⟨_, .list (fun datum heq => hquotes ⟨datum, heq⟩) hitems⟩

end Reader

namespace Token.Stream

open Reader

theorem outcome_form {s : Stream} {datum : Datum} (h : s.readStrictly.1 = .ok datum) :
    (form nestingLimit s.remaining).outcome = .ok datum := by
  unfold readStrictly at h
  cases hread : form nestingLimit s.remaining with
  | done read rest fits =>
    rw [hread] at h
    exact congrArg Except.ok (Except.ok.inj h)
  | failed fault rest fits => simp [hread] at h

theorem readStrictly_of_gives {s : Stream} {datum : Datum} {rest : List Token}
    (h : (form nestingLimit s.remaining).Gives datum rest) :
    s.readStrictly = (.ok datum, s.leaving rest) := by
  obtain ⟨fits, hread⟩ := h
  unfold readStrictly
  rw [hread]

/-- What was read from a text is printed, and the print is read again: it is cut without an open
string literal, it is one form and nothing else, and this form is printed in the same way.  It is
the same datum if there are no doubles. -/
theorem readStrictly_render {comments : Bool} {text : String} {datum : Datum}
    (h : (ofText comments text).readStrictly.1 = .ok datum) :
    let again := ofText comments datum.render
    again.unterminated = none ∧
      ∃ datum', again.readStrictly.1 = .ok datum' ∧ again.readStrictly.2.isExhausted = true ∧
        datum'.render = datum.render ∧ (¬ datum.HasDouble → datum' = datum) := by
  intro again
  have hlegible : ∀ token ∈ (ofText comments text).remaining, token.Legible comments := by
    intro token htoken
    obtain ⟨lexeme, hlexeme, rfl⟩ := List.mem_map.mp htoken
    exact legible_lexemes text.toList lexeme hlexeme
  obtain ⟨tokens, hspelled⟩ := (readable_of_form nestingLimit hlegible (outcome_form h)).spelled
  have hcut : lexemes comments datum.render.toList = tokens.map (⟨·, true⟩) := by
    have hwritten := hspelled.cut [] (by simp [EndsWord])
    rw [lexemes_nil, List.append_nil, List.append_nil] at hwritten
    rw [Datum.render, String.toList_ofList, hwritten]
  have htokens : again.remaining = tokens := by
    simp [again, remaining, ofText, hcut, Function.comp_def]
  have hread := hspelled.read []
  rw [List.append_nil, ← htokens] at hread
  rw [readStrictly_of_gives hread]
  refine ⟨?_, datum.reread, rfl, ?_, ?_, Datum.reread_eq_self⟩
  · simp [again, ofText, hcut]
  · rw [isExhausted, position_leaving]
    exact decide_eq_true (Nat.le_refl _)
  · exact congrArg String.ofList datum.written_reread.1

/-- What is printed here is shorter than what was read. -/
theorem readStrictly_render_shorthand :
    let datum := Datum.ofList
      [.symbol "f", .quoted (.symbol "x"), .nil, .number (.integer (-7)), .string "a;b"]
    (ofText true "(f (quote x) ( ) -07 \"a;b\") ; c").readStrictly.1 = .ok datum ∧
      (ofText true datum.render).readStrictly.1 = .ok datum := by
  intro datum
  have hread : (ofText true "(f (quote x) ( ) -07 \"a;b\") ; c").readStrictly.1 = .ok datum := by
    decide +kernel
  have hdoubles : ¬ datum.HasDouble := by simp [datum, Datum.quoted, Datum.ofList, Datum.HasDouble]
  obtain ⟨-, datum', hagain, -, -, hsame⟩ := readStrictly_render hread
  rw [hsame hdoubles] at hagain
  exact ⟨hread, hagain⟩

end Token.Stream

end DynLisp
