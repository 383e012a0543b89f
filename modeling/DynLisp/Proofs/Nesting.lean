/-
  Proofs/Nesting.lean --- which expressions are nested too deeply.

  WHAT THIS FILE IS FOR.  A `Phrase` is a well-formed expression as it is written, with
  its lists and quotes.  It is read as what it stands for, or refused as nested too
  deeply, and there is no third outcome.  Which of the two it is depends on how deeply
  it is nested, and at the limit itself on what stands innermost (`read_by_nesting`).

  AT THE LIMIT.  The depth is checked where an expression starts, and not where a list
  or a quote opens.  So a list may be opened inside one less than the limit, and be
  left empty.  An atom inside as many lists and quotes as the limit allows is refused.
-/
import DynLisp.Proofs.RoundTrip

set_option autoImplicit false

namespace DynLisp

namespace Reader

/-! ## Expressions as they are written -/

/-- A well-formed expression. -/
inductive Phrase where
  | string (content : String)
  | word (text : String)
  | list (items : List Phrase)
  | quote (inner : Phrase)

/-! ## Faults

A fault in a part is the fault of the whole. -/

section Faults

variable {room : Nat} {fault : Fault} {read : List Datum} {token : Token} {more : List Token}

theorem outcome_form_quote {tokens : List Token}
    (h : (form room tokens).outcome = .error fault) :
    (form (room + 1) (.quote :: tokens)).outcome = .error fault := by
  unfold form
  split
  · rename_i hinner
    rw [hinner] at h
    cases h
  · rename_i hinner
    rw [hinner] at h
    exact h

/-- The first item of those still to be read is faulty. -/
theorem outcome_items_of_item (hne : token ≠ .closing)
    (h : (form room (token :: more)).outcome = .error fault) :
    (items (form room) read (token :: more)).outcome = .error fault := by
  rw [items]
  · split
    · rename_i hitem
      rw [hitem] at h
      exact h
    · rename_i hitem
      rw [hitem] at h
      cases h
  · exact hne

/-- What comes after the first item is faulty. -/
theorem outcome_items_of_rest {item : Datum} {left : List Token} (hne : token ≠ .closing)
    (hitem : (form room (token :: more)).Gives item left)
    (h : (items (form room) (item :: read) left).outcome = .error fault) :
    (items (form room) read (token :: more)).outcome = .error fault := by
  obtain ⟨fits, hread⟩ := hitem
  rw [items, hread]
  · exact (Reading.outcome_widen _ _).trans h
  · exact hne

end Faults

namespace Phrase

/-- What holds of an expression if it holds of its parts holds of every expression. -/
@[elab_as_elim, induction_eliminator]
theorem induct {motive : Phrase → Prop} (string : ∀ content, motive (string content))
    (word : ∀ text, motive (word text))
    (list : ∀ items, (∀ item ∈ items, motive item) → motive (list items))
    (quote : ∀ inner, motive inner → motive (quote inner)) : ∀ phrase, motive phrase
  | .string content => string content
  | .word text => word text
  | .list items => list items fun item _ => induct string word list quote item
  | .quote inner => quote inner (induct string word list quote inner)

mutual

/-- The tokens of an expression. -/
def tokens : Phrase → List Token
  | string content => [.string content]
  | word text => [.word text]
  | list items => .opening :: tokensToEnd items
  | quote inner => .quote :: inner.tokens

/-- The tokens of the items of a list, and the parenthesis that closes it. -/
def tokensToEnd : List Phrase → List Token
  | [] => [.closing]
  | item :: more => item.tokens ++ tokensToEnd more

end

mutual

/-- What the expression stands for. -/
def datum : Phrase → Datum
  | string content => .string content
  | word text => .ofWord text
  | list items => .ofList (data items)
  | quote inner => .quoted inner.datum

/-- What some expressions stand for. -/
def data : List Phrase → List Datum
  | [] => []
  | item :: more => item.datum :: data more

end

mutual

/-- How many lists and quotes enclose or form a point of the expression, at most. -/
def nesting : Phrase → Nat
  | string _ | word _ => 0
  | list items => nestingOfItems items + 1
  | quote inner => inner.nesting + 1

/-- The same of some expressions side by side. -/
def nestingOfItems : List Phrase → Nat
  | [] => 0
  | item :: more => max item.nesting (nestingOfItems more)

end

/-- A word or a string of the expression stands inside just so many of its lists and quotes. -/
inductive AtomWithin : Nat → Phrase → Prop where
  | string (content : String) : AtomWithin 0 (.string content)
  | word (text : String) : AtomWithin 0 (.word text)
  | list {n : Nat} {items : List Phrase} {item : Phrase} (hitem : item ∈ items)
      (h : AtomWithin n item) : AtomWithin (n + 1) (.list items)
  | quote {n : Nat} {inner : Phrase} (h : AtomWithin n inner) : AtomWithin (n + 1) (.quote inner)

theorem nestingOfItems_le {items : List Phrase} {n : Nat} :
    nestingOfItems items ≤ n ↔ ∀ item ∈ items, item.nesting ≤ n := by
  induction items with
  | nil => simp [nestingOfItems]
  | cons item more ih => rw [nestingOfItems, Nat.max_le, ih, List.forall_mem_cons]

/-- No atom stands inside more lists and quotes than there are. -/
theorem AtomWithin.le_nesting {n : Nat} {phrase : Phrase} (h : phrase.AtomWithin n) :
    n ≤ phrase.nesting := by
  induction h with
  | string | word => exact Nat.zero_le _
  | list hitem _ ih =>
    have hle := nestingOfItems_le.mp (Nat.le_refl _) _ hitem
    exact Nat.succ_le_succ (Nat.le_trans ih hle)
  | quote _ ih => exact Nat.succ_le_succ ih

/-- An expression starts with a token that closes nothing. -/
theorem tokens_eq_cons (phrase : Phrase) :
    ∃ token more, phrase.tokens = token :: more ∧ token ≠ .closing := by
  cases phrase <;> rw [tokens] <;> exact ⟨_, _, rfl, Token.noConfusion⟩

/-! ## Lists of one item -/

/-- An expression inside so many lists that hold nothing else. -/
def inLists : Nat → Phrase → Phrase
  | 0, innermost => innermost
  | n + 1, innermost => list [inLists n innermost]

theorem nesting_inLists (n : Nat) (innermost : Phrase) :
    (inLists n innermost).nesting = n + innermost.nesting := by
  induction n with
  | zero => rw [inLists, Nat.zero_add]
  | succ n ih =>
    rw [inLists, nesting, nestingOfItems, nestingOfItems, Nat.max_zero, ih]
    omega

theorem AtomWithin.inLists {n m : Nat} {innermost : Phrase} (h : innermost.AtomWithin m) :
    (inLists n innermost).AtomWithin (n + m) := by
  induction n with
  | zero => rwa [Phrase.inLists, Nat.zero_add]
  | succ n ih =>
    rw [Phrase.inLists, Nat.succ_add]
    exact .list (List.mem_singleton.mpr rfl) ih

theorem not_atomWithin_inLists (n m : Nat) : ¬ (inLists n (.list [])).AtomWithin m := by
  induction n generalizing m with
  | zero =>
    rintro (_ | _ | ⟨hitem, -⟩)
    exact absurd hitem List.not_mem_nil
  | succ n ih =>
    rintro (_ | _ | ⟨hitem, hatom⟩)
    obtain rfl := List.mem_singleton.mp hitem
    exact ih _ hatom

/-! ## Room for an expression -/

/-- The expression is nested at most so deeply, and no atom of it just so deeply. -/
def Fits (room : Nat) (phrase : Phrase) : Prop :=
  phrase.nesting ≤ room ∧ ¬ phrase.AtomWithin room

variable {room : Nat}

theorem not_fits_zero (phrase : Phrase) : ¬ phrase.Fits 0 := by
  rintro ⟨hnesting, hatom⟩
  cases phrase with
  | string content => exact hatom (.string content)
  | word text => exact hatom (.word text)
  | list | quote => exact absurd hnesting (by rw [nesting]; exact Nat.not_succ_le_zero _)

theorem fits_string (content : String) : (string content).Fits (room + 1) :=
  ⟨Nat.zero_le _, fun h => nomatch h⟩

theorem fits_word (text : String) : (word text).Fits (room + 1) :=
  ⟨Nat.zero_le _, fun h => nomatch h⟩

theorem fits_list {items : List Phrase} :
    (list items).Fits (room + 1) ↔ ∀ item ∈ items, item.Fits room := by
  rw [Fits, nesting, Nat.add_le_add_iff_right, nestingOfItems_le]
  constructor
  · rintro ⟨hnesting, hatom⟩ item hitem
    exact ⟨hnesting item hitem, fun h => hatom (.list hitem h)⟩
  · intro h
    refine ⟨fun item hitem => (h item hitem).1, fun hatom => ?_⟩
    cases hatom with
    | list hitem hatom => exact (h _ hitem).2 hatom

theorem fits_quote {inner : Phrase} : (quote inner).Fits (room + 1) ↔ inner.Fits room := by
  rw [Fits, nesting, Nat.add_le_add_iff_right]
  refine and_congr_right fun _ => not_congr ⟨fun h => ?_, .quote⟩
  cases h with
  | quote h => exact h

/-! ## Reading an expression -/

/-- A list is read to its end if each of its items is read. -/
theorem items_gives {items : List Phrase}
    (h : ∀ item ∈ items, ∀ rest, (form room (item.tokens ++ rest)).Gives item.datum rest)
    (read : List Datum) (rest : List Token) :
    (Reader.items (form room) read (tokensToEnd items ++ rest)).Gives
      (.ofList (read.reverse ++ data items)) rest := by
  induction items generalizing read with
  | nil =>
    rw [tokensToEnd, data, List.append_nil, List.singleton_append, Reader.items]
    exact ⟨_, rfl⟩
  | cons item more ih =>
    obtain ⟨hitem, hmore⟩ := List.forall_mem_cons.mp h
    obtain ⟨token, others, htokens, hne⟩ := item.tokens_eq_cons
    have hfirst := hitem (tokensToEnd more ++ rest)
    have hrest := ih hmore (item.datum :: read)
    rw [List.reverse_cons, List.append_assoc] at hrest
    rw [tokensToEnd, List.append_assoc, data]
    rw [htokens] at hfirst ⊢
    exact gives_items hne hfirst hrest

/-- An expression that fits is read as what it stands for. -/
theorem form_gives {phrase : Phrase} (h : phrase.Fits room) (rest : List Token) :
    (form room (phrase.tokens ++ rest)).Gives phrase.datum rest := by
  induction phrase generalizing room rest with
  | string | word =>
    cases room with
    | zero => exact absurd h (not_fits_zero _)
    | succ room => exact ⟨Nat.le_refl _, rfl⟩
  | list items ih =>
    cases room with
    | zero => exact absurd h (not_fits_zero _)
    | succ room =>
      rw [tokens, datum]
      exact items_gives (fun item hitem => ih item hitem (fits_list.mp h item hitem)) [] rest
  | quote inner ih =>
    cases room with
    | zero => exact absurd h (not_fits_zero _)
    | succ room =>
      rw [tokens, datum]
      exact gives_quoted (ih (fits_quote.mp h) rest)

/-- A list is refused if one of its items is.  Those before it are read. -/
theorem items_refuses {items : List Phrase} (hnot : ¬ ∀ item ∈ items, item.Fits room)
    (h : ∀ item ∈ items, ¬ item.Fits room → ∀ rest,
      (form room (item.tokens ++ rest)).outcome = .error .tooDeeplyNested)
    (read : List Datum) (rest : List Token) :
    (Reader.items (form room) read (tokensToEnd items ++ rest)).outcome =
      .error .tooDeeplyNested := by
  induction items generalizing read with
  | nil => exact absurd (by simp) hnot
  | cons item more ih =>
    obtain ⟨hitem, hmore⟩ := List.forall_mem_cons.mp h
    obtain ⟨token, others, htokens, hne⟩ := item.tokens_eq_cons
    rw [tokensToEnd, List.append_assoc]
    by_cases hfits : item.Fits room
    · have hgives := form_gives hfits (tokensToEnd more ++ rest)
      have hrest := ih (fun hall => hnot (List.forall_mem_cons.mpr ⟨hfits, hall⟩)) hmore
        (item.datum :: read)
      rw [htokens] at hgives ⊢
      exact outcome_items_of_rest hne hgives hrest
    · have hrefused := hitem hfits (tokensToEnd more ++ rest)
      rw [htokens] at hrefused ⊢
      exact outcome_items_of_item hne hrefused

/-- An expression that does not fit is refused as nested too deeply. -/
theorem form_refuses {phrase : Phrase} (h : ¬ phrase.Fits room) (rest : List Token) :
    (form room (phrase.tokens ++ rest)).outcome = .error .tooDeeplyNested := by
  induction phrase generalizing room rest with
  | string content =>
    cases room with
    | zero => rfl
    | succ room => exact absurd (fits_string content) h
  | word text =>
    cases room with
    | zero => rfl
    | succ room => exact absurd (fits_word text) h
  | list items ih =>
    cases room with
    | zero => rfl
    | succ room =>
      rw [tokens]
      exact items_refuses (fun hall => h (fits_list.mpr hall)) (fun item hitem => ih item hitem) []
        rest
  | quote inner ih =>
    cases room with
    | zero => rfl
    | succ room =>
      rw [tokens]
      exact outcome_form_quote (ih (fun hfits => h (fits_quote.mpr hfits)) rest)

end Phrase

end Reader

/-! ## Reading from a stream -/

namespace Token.Stream

open Reader

variable {s : Stream} {phrase : Phrase} {rest : List Token}

theorem readStrictly_of_fits (h : s.remaining = phrase.tokens ++ rest)
    (hfits : phrase.Fits nestingLimit) : s.readStrictly = (.ok phrase.datum, s.leaving rest) :=
  readStrictly_of_gives (h ▸ phrase.form_gives hfits rest)

theorem readStrictly_of_not_fits (h : s.remaining = phrase.tokens ++ rest)
    (hfits : ¬ phrase.Fits nestingLimit) :
    ∃ place, s.readStrictly.1 = .error (.faulty .tooDeeplyNested place) := by
  have hrefused := phrase.form_refuses hfits rest
  rw [← h] at hrefused
  unfold readStrictly
  cases hread : form nestingLimit s.remaining with
  | done =>
    rw [hread] at hrefused
    exact nomatch hrefused
  | failed fault =>
    rw [hread] at hrefused
    obtain rfl : fault = .tooDeeplyNested := Except.error.inj hrefused
    exact ⟨_, rfl⟩

/-- An expression is read if it is nested at most as deeply as the limit says and no atom of it just
so deeply.  All others are refused as nested too deeply.  So what is refused is not exactly what
exceeds the limit, but also what reaches it with an atom, and nothing else. -/
theorem read_by_nesting (h : s.remaining = phrase.tokens ++ rest) :
    let accepted := s.readStrictly = (.ok phrase.datum, s.leaving rest)
    let refused := ∃ place, s.readStrictly.1 = .error (.faulty .tooDeeplyNested place)
    (phrase.nesting ≤ nestingLimit ∧ ¬ phrase.AtomWithin nestingLimit → accepted) ∧
      (nestingLimit < phrase.nesting ∨ phrase.AtomWithin nestingLimit → refused) ∧
      ((phrase.nesting ≤ nestingLimit → accepted) ∧ (nestingLimit < phrase.nesting → refused) ↔
        ¬ (phrase.nesting = nestingLimit ∧ phrase.AtomWithin nestingLimit)) := by
  intro accepted refused
  have haccepted : phrase.Fits nestingLimit → accepted := readStrictly_of_fits h
  have hrefused : nestingLimit < phrase.nesting ∨ phrase.AtomWithin nestingLimit → refused := by
    rintro (hlt | hatom)
    · exact readStrictly_of_not_fits h fun hfits => Nat.not_le.mpr hlt hfits.1
    · exact readStrictly_of_not_fits h fun hfits => hfits.2 hatom
  refine ⟨haccepted, hrefused, ?_, ?_⟩
  · rintro ⟨hread, -⟩ ⟨hnesting, hatom⟩
    have hread : accepted := hread (Nat.le_of_eq hnesting)
    obtain ⟨place, hplace⟩ := hrefused (.inr hatom)
    rw [hread] at hplace
    exact nomatch hplace
  · intro hnot
    refine ⟨fun hle => haccepted ⟨hle, fun hatom => hnot ⟨?_, hatom⟩⟩, fun hlt => ?_⟩
    · exact Nat.le_antisymm hle hatom.le_nesting
    · exact hrefused (.inl hlt)

/-- A word inside two lists, and a word after that. -/
theorem read_by_nesting_twice :
    let phrase : Phrase := .list [.list [.word "x"]]
    let s : Stream := { tokens := phrase.tokens ++ [.word "y"] }
    s.remaining = phrase.tokens ++ [.word "y"] ∧ phrase.nesting = 2 ∧
      s.readStrictly = (.ok (.ofList [.ofList [.symbol "x"]]), s.leaving [.word "y"]) := by
  intro phrase s
  have hremaining : s.remaining = phrase.tokens ++ [.word "y"] := rfl
  have hdatum : phrase.datum = .ofList [.ofList [.symbol "x"]] := by decide
  have hatom : ¬ phrase.AtomWithin nestingLimit := fun h => absurd h.le_nesting (by decide)
  have hread := (read_by_nesting hremaining).1 ⟨by decide, hatom⟩
  rw [hdatum] at hread
  exact ⟨hremaining, by decide, hread⟩

/-- Two expressions that are nested just as deeply as the limit says.  The one whose innermost list
is empty is read, and the one that has a word there is refused. -/
theorem refused_at_limit :
    let empty := Phrase.inLists (nestingLimit - 1) (.list [])
    let full := Phrase.inLists nestingLimit (.word "x")
    (empty.nesting = nestingLimit ∧
        (readStrictly { tokens := empty.tokens }).1 = .ok empty.datum) ∧
      full.nesting = nestingLimit ∧
        ∃ place, (readStrictly { tokens := full.tokens }).1 =
          .error (.faulty .tooDeeplyNested place) := by
  intro empty full
  have hempty : empty.nesting = nestingLimit := Phrase.nesting_inLists _ _
  have hfull : full.nesting = nestingLimit := Phrase.nesting_inLists _ _
  have hfits : empty.Fits nestingLimit := ⟨Nat.le_of_eq hempty, Phrase.not_atomWithin_inLists _ _⟩
  have hnot : ¬ full.Fits nestingLimit := fun h => h.2 (Phrase.AtomWithin.word "x").inLists
  refine ⟨⟨hempty, ?_⟩, hfull, ?_⟩
  · rw [readStrictly_of_fits (List.append_nil _).symm hfits]
  · exact readStrictly_of_not_fits (List.append_nil _).symm hnot

end Token.Stream

end DynLisp
