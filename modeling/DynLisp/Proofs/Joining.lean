/-
  Proofs/Joining.lean --- a text with another one on the lines after it.

  WHAT THIS FILE IS FOR.  The lexer and the reader go through a text from its front, so
  what comes later in it can only matter where they run on to its end: in a string
  literal, a list or a quote that the text leaves open.  Where there is no such thing,
  the text with another one after a line feed is cut into the lexemes of both
  (`lexemes_newline`), and is read as the forms of both (`readAll_before`).

  THE PLACES.  `Stream.before` and `Stream.behind` are the stream of both texts, standing
  in the first one or in the second.  A form of the first is read as it would be without
  the second.  A form of the second is read as it would be by itself, but for the places
  of its errors, which count the tokens of the first as well.
-/
import DynLisp.Proofs.Coverage
import DynLisp.Proofs.Cuts

set_option autoImplicit false

namespace DynLisp

/-! ## Lexemes -/

namespace Token

variable {comments : Bool}

theorem isBlank_newline : Text.isBlank '\n' = true := by decide

/-- A gap before some text stays one if lines come after that text: a comment still ends where the
text or its line did. -/
theorem Gap.newline {rest gap : List Char} (h : Gap comments rest gap) (text : List Char) :
    Gap comments (rest ++ '\n' :: text) gap := by
  induction h with
  | nothing => exact .nothing
  | blank hc _ ih => exact .blank hc ih
  | @comment body gap hcomments hbody hend _ ih =>
    refine .comment hcomments hbody (fun c hc => ?_) ih
    rw [← List.append_assoc, List.head?_append] at hc
    cases hhead : (gap ++ rest).head? with
    | none =>
      rw [hhead] at hc
      exact (Option.some.inj hc).symm
    | some d =>
      rw [hhead] at hc
      obtain rfl : d = c := Option.some.inj hc
      exact hend d hhead

theorem Lexeme.Stands.newline {lexeme : Lexeme} {rest : List Char}
    (h : lexeme.Stands comments rest) (hclosed : lexeme.closed = true) (text : List Char) :
    lexeme.Stands comments (rest ++ '\n' :: text) := by
  cases h with
  | opening => exact .opening _
  | closing => exact .closing _
  | quote => exact .quote _
  | string h => exact .string h _
  | openString => simp at hclosed
  | word h hrest =>
    refine .word h fun c hc => ?_
    cases rest with
    | cons d more => exact hrest c hc
    | nil =>
      obtain rfl : '\n' = c := Option.some.inj hc
      simp [isWordChar, isBlank_newline]

/-- A text without an open string literal is cut the same whatever lines come after it. -/
theorem Cut.lexemes_newline {before : List Char} {found : List Lexeme}
    (h : Cut comments before found) (hclosed : ∀ lexeme ∈ found, lexeme.closed = true)
    (after : List Char) :
    lexemes comments (before ++ '\n' :: after) = found ++ lexemes comments after := by
  induction h with
  | gap hgap =>
    have hline : afterGap comments ('\n' :: after) = afterGap comments after := by
      rw [afterGap, if_pos isBlank_newline]
    exact lexemes_congr ((hgap.newline after).afterGap_append.trans hline)
  | @lexeme gap rest lexeme more hgap hlexeme _ ih =>
    obtain ⟨hfirst, hmore⟩ := List.forall_mem_cons.mp hclosed
    have hgap' := hgap.newline after
    rw [List.append_assoc] at hgap'
    rw [List.append_assoc, List.append_assoc, lexemes_congr hgap'.afterGap_append,
      (hlexeme.newline hfirst after).lexemes_append, ih hmore, List.cons_append]

end Token

/-! ## One form -/

namespace Reader

/-- Two reads come to the same, and the second leaves some more tokens at the end. -/
structure Reading.Before {bound bound' : Nat} (reading : Reading bound) (more : List Token)
    (reading' : Reading bound') : Prop where
  outcome : reading'.outcome = reading.outcome
  rest : reading'.rest = reading.rest ++ more

variable {more : List Token}

/-- The end of a list is found before the end of the tokens, or it is not found. -/
theorem items_before {form : (tokens : List Token) → Reading (tokens.length - 1)}
    (hrest : ∀ tokens, (form tokens).rest <:+ tokens)
    (hform : ∀ tokens, tokens ≠ [] → ¬ [.quote] <:+ tokens →
      (form tokens).outcome ≠ .error .unclosedList →
        (form tokens).Before more (form (tokens ++ more)))
    (read : List Datum) {tokens : List Token} (hlast : ¬ [.quote] <:+ tokens)
    (hclosed : (items form read tokens).outcome ≠ .error .unclosedList) :
    (items form read tokens).Before more (items form read (tokens ++ more)) := by
  fun_induction items form read tokens with
  | case1 => exact absurd rfl hclosed
  | case2 read rest =>
    rw [List.cons_append, items]
    exact ⟨rfl, rfl⟩
  | case3 read token after hclosing fault rest fits hread =>
    have hitem := hform (token :: after) (List.cons_ne_nil _ _) hlast (by rwa [hread])
    obtain ⟨houtcome, hleft⟩ := hitem
    rw [hread, List.cons_append] at houtcome hleft
    rw [List.cons_append]
    cases hread' : form (token :: (after ++ more)) with
    | done item rest' fits' => simp [hread', Reading.outcome] at houtcome
    | failed fault' rest' fits' =>
      rw [hread'] at houtcome hleft
      obtain rfl : fault' = fault := Except.error.inj houtcome
      rw [items, hread']
      · exact ⟨rfl, hleft⟩
      · exact hclosing
  | case4 read token after hclosing item rest fits hread ih =>
    have hitem := hform (token :: after) (List.cons_ne_nil _ _) hlast
      (by simp [hread, Reading.outcome])
    have hsuffix := hrest (token :: after)
    obtain ⟨houtcome, hleft⟩ := hitem
    rw [hread] at hsuffix
    rw [hread, List.cons_append] at houtcome hleft
    rw [Reading.outcome_widen] at hclosed
    have hmore := ih (fun hquote => hlast (hquote.trans hsuffix)) hclosed
    rw [List.cons_append]
    cases hread' : form (token :: (after ++ more)) with
    | failed fault' rest' fits' => simp [hread', Reading.outcome] at houtcome
    | done item' rest' fits' =>
      rw [hread'] at houtcome hleft
      obtain rfl : item' = item := Except.ok.inj houtcome
      obtain rfl : rest' = rest ++ more := hleft
      rw [items, hread']
      · exact ⟨by simpa using hmore.outcome, by simpa using hmore.rest⟩
      · exact hclosing

/-- A read that is not ended by the end of the tokens is the same whatever tokens come later. -/
theorem form_before (room : Nat) {tokens : List Token} (hne : tokens ≠ [])
    (hlast : ¬ [.quote] <:+ tokens)
    (hclosed : (form room tokens).outcome ≠ .error .unclosedList) :
    (form room tokens).Before more (form room (tokens ++ more)) := by
  induction room generalizing tokens with
  | zero => exact ⟨rfl, rfl⟩
  | succ room ih =>
    obtain ⟨token, after, rfl⟩ := List.exists_cons_of_ne_nil hne
    have hlast' : ¬ [.quote] <:+ after := fun hquote => hlast (hquote.trans (List.suffix_cons _ _))
    cases token with
    | string | word | closing => exact ⟨rfl, rfl⟩
    | opening =>
      rw [List.cons_append, form, form]
      rw [form] at hclosed
      exact items_before (rest_form_suffix room) (fun _ => ih) [] hlast' hclosed
    | quote =>
      have hafter : after ≠ [] := fun hnil => hlast (hnil ▸ List.suffix_rfl)
      have houtcome : ∀ left, (form (room + 1) (.quote :: left)).outcome =
          (form room left).outcome.map Datum.quoted ∧
          (form (room + 1) (.quote :: left)).rest = (form room left).rest := by
        intro left
        rw [form]
        cases form room left <;> exact ⟨rfl, rfl⟩
      have hinner := ih hafter hlast' fun herror =>
        hclosed ((houtcome after).1.trans (by rw [herror]; rfl))
      rw [List.cons_append]
      refine ⟨?_, ?_⟩
      · rw [(houtcome _).1, (houtcome _).1, hinner.outcome]
      · rw [(houtcome _).2, (houtcome _).2, hinner.rest]

end Reader

/-! ## Two streams in one -/

/-- The error as it is if so many tokens more come before. -/
def ReadError.further (n : Nat) : ReadError → ReadError
  | faulty fault place => faulty fault (place + n)
  | unterminatedString place => unterminatedString (place + n)

namespace Token.Stream

open Reader

/-- The stream with the tokens of another one at its end. -/
def before (s t : Stream) : Stream where
  tokens := s.tokens ++ t.tokens
  unterminated := t.unterminated.map (· + s.length)
  position := s.position
  position_le := by
    rw [List.length_append]
    exact Nat.le_add_right_of_le s.position_le

/-- The stream with some more tokens at its front, all of them taken. -/
def behind (t : Stream) (earlier : List Token) : Stream where
  tokens := earlier ++ t.tokens
  unterminated := t.unterminated.map (· + earlier.length)
  position := earlier.length + t.position
  position_le := by
    rw [List.length_append]
    exact Nat.add_le_add_left t.position_le _

variable (s t : Stream) (earlier : List Token)

@[simp] theorem length_before : (s.before t).length = s.length + t.length := List.length_append

@[simp] theorem length_behind : (t.behind earlier).length = earlier.length + t.length :=
  List.length_append

theorem remaining_before : (s.before t).remaining = s.remaining ++ t.tokens :=
  List.drop_append_of_le_length s.position_le

theorem remaining_behind : (t.behind earlier).remaining = t.remaining :=
  List.drop_length_add_append ..

variable {s t earlier}

/-- The tokens, the open string literal and the place are all that there is to a stream. -/
theorem eq_of_parts {s' : Stream} (htokens : s'.tokens = s.tokens)
    (hopen : s'.unterminated = s.unterminated) (hposition : s'.position = s.position) : s' = s := by
  obtain ⟨tokens, unterminated, position, hle⟩ := s
  obtain ⟨tokens', unterminated', position', hle'⟩ := s'
  obtain rfl : tokens' = tokens := htokens
  obtain rfl : unterminated' = unterminated := hopen
  obtain rfl : position' = position := hposition
  rfl

theorem leaving_before (s t : Stream) (rest : List Token) :
    (s.before t).leaving (rest ++ t.tokens) = (s.leaving rest).before t := by
  refine eq_of_parts rfl rfl ?_
  show _ = (s.leaving rest).position
  rw [position_leaving, position_leaving, length_before, List.length_append]
  show s.length + t.length - (rest.length + t.length) = _
  omega

theorem leaving_behind {rest : List Token} (h : rest.length ≤ t.length) :
    (t.behind earlier).leaving rest = (t.leaving rest).behind earlier := by
  refine eq_of_parts rfl rfl ?_
  show _ = earlier.length + (t.leaving rest).position
  rw [position_leaving, position_leaving, length_behind]
  omega

/-- Where the first stream has come to its end, the second one starts. -/
theorem before_eq_behind (hs : s.isExhausted = true) (ht : t.position = 0) :
    s.before t = t.behind s.tokens := by
  refine eq_of_parts rfl rfl ?_
  show s.position = s.length + t.position
  simp only [isExhausted, decide_eq_true_eq] at hs
  rw [ht]
  exact Nat.le_antisymm s.position_le hs

/-- A text and another one after a line feed have the tokens of both. -/
theorem ofText_newline {comments : Bool} {a : String}
    (h : (ofText comments a).unterminated = none) (b : String) :
    ofText comments (a ++ "\n" ++ b) = (ofText comments a).before (ofText comments b) := by
  have hclosed : ∀ lexeme ∈ lexemes comments a.toList, lexeme.closed = true := by
    simpa [ofText, List.findIdx?_eq_none_iff] using h
  have hcut : lexemes comments (a ++ "\n" ++ b).toList =
      lexemes comments a.toList ++ lexemes comments b.toList := by
    rw [String.toList_append, String.toList_append, List.append_assoc]
    exact (cut_lexemes a.toList).lexemes_newline hclosed b.toList
  have hnone : (lexemes comments a.toList).findIdx? (!·.closed) = none := h
  refine eq_of_parts ?_ ?_ rfl
  · simp only [ofText, before, hcut, List.map_append]
  · simp only [ofText, before, hcut, List.findIdx?_append, hnone, Option.none_or, length,
      List.length_map]

/-! ## One form of two streams -/

/-- What a strict read comes to, but for the place of its fault. -/
theorem readStrictly_fst (s : Stream) :
    s.readStrictly.1 = (form nestingLimit s.remaining).outcome.mapError fun fault =>
      .faulty fault (if fault = .unexpectedClose then s.readStrictly.2.position - 1
        else s.readStrictly.2.position) := by
  unfold readStrictly
  cases form nestingLimit s.remaining <;> rfl

end Token.Stream

namespace Form

/-- Neither the end of the tokens nor the limit on nesting has ended the form. -/
def Closes (form : Form) : Prop :=
  ∀ place, form.outcome ≠ .error (.faulty .unclosedList place) ∧
    form.outcome ≠ .error (.faulty .tooDeeplyNested place)

instance (form : Form) : Decidable form.Closes :=
  match h : form.outcome with
  | .error (.faulty .unclosedList place) | .error (.faulty .tooDeeplyNested place) =>
    .isFalse fun hcloses => by simp [Closes, h] at hcloses
  | .ok _ | .error (.faulty .unexpectedClose _) | .error (.unterminatedString _) =>
    .isTrue fun place => by simp [h]

/-- The form, if the tokens of another stream come after its own. -/
def before (form : Form) (t : Token.Stream) : Form := { form with after := form.after.before t }

/-- The form, if some more tokens come before its own. -/
def behind (form : Form) (earlier : List Token) : Form where
  outcome := form.outcome.mapError (·.further earlier.length)
  unterminated := form.unterminated.map (·.further earlier.length)
  after := form.after.behind earlier

end Form

namespace Token.Stream

open Reader

variable {s t : Stream} {earlier : List Token}

/-- Only after a form that is nested too deeply is anything of a stream given up. -/
theorem recover_of_ne {outcome : Except ReadError Datum}
    (h : ∀ place, outcome ≠ .error (.faulty .tooDeeplyNested place)) :
    s.recover outcome = s := by
  unfold recover
  split
  · exact absurd rfl (h _)
  · rfl

theorem readStrictly_before (hs : s.isExhausted = false) (hlast : ¬ [.quote] <:+ s.tokens)
    (hcloses : s.read.Closes) :
    (s.before t).readStrictly = (s.readStrictly.1, s.readStrictly.2.before t) := by
  have hne : s.remaining ≠ [] := by
    rw [← List.length_pos_iff, length_remaining]
    exact Nat.sub_pos_of_lt (lt_length_of_not_exhausted hs)
  have hquote : ¬ [.quote] <:+ s.remaining :=
    fun hquote => hlast (hquote.trans (List.drop_suffix _ _))
  have hclosed : (form nestingLimit s.remaining).outcome ≠ .error .unclosedList := by
    intro herror
    have hfst := s.readStrictly_fst
    rw [herror] at hfst
    exact (hcloses _).1 hfst
  obtain ⟨houtcome, hrest⟩ : (form nestingLimit s.remaining).Before t.tokens _ :=
    form_before nestingLimit hne hquote hclosed
  have hsnd : (s.before t).readStrictly.2 = s.readStrictly.2.before t := by
    rw [readStrictly_snd, readStrictly_snd, remaining_before, hrest, leaving_before]
  refine Prod.ext ?_ hsnd
  rw [readStrictly_fst, readStrictly_fst, hsnd, remaining_before, houtcome]
  rfl

/-- A form that closes is the same whatever comes after the tokens of its stream. -/
theorem read_before (hs : s.isExhausted = false) (hopen : s.unterminated = none)
    (hlast : ¬ [.quote] <:+ s.tokens) (hcloses : s.read.Closes) :
    (s.before t).read = s.read.before t := by
  have hstrictly := readStrictly_before (t := t) hs hlast hcloses
  have hdeep : ∀ place, s.readStrictly.1 ≠ .error (.faulty .tooDeeplyNested place) :=
    fun place => (hcloses place).2
  have hstop : s.readStrictly.2.position ≤ s.length := s.position_readStrictly_le
  -- The open string literal, if there is one, is in the second stream.
  have hnone : (s.before t).unterminatedBetween s.position s.readStrictly.2.position = none := by
    unfold unterminatedBetween before
    cases t.unterminated with
    | none => rfl
    | some place =>
      refine if_neg fun hin => ?_
      have hplace : place + s.length < s.readStrictly.2.position := hin.2
      omega
  have hnone' : s.unterminatedBetween s.position s.readStrictly.2.position = none := by
    unfold unterminatedBetween
    rw [hopen]
  unfold read Form.before
  simp only [hstrictly, recover_of_ne hdeep, Form.mk.injEq, true_and, hnone', and_true]
  exact hnone

theorem readStrictly_behind (ht : t.isExhausted = false) :
    (t.behind earlier).readStrictly =
      (t.readStrictly.1.mapError (·.further earlier.length), t.readStrictly.2.behind earlier) := by
  have hfits : (form nestingLimit t.remaining).rest.length ≤ t.length :=
    ((rest_form_suffix _ _).trans (List.drop_suffix _ _)).length_le
  have hsnd : (t.behind earlier).readStrictly.2 = t.readStrictly.2.behind earlier := by
    rw [readStrictly_snd, readStrictly_snd, remaining_behind, leaving_behind hfits]
  refine Prod.ext ?_ hsnd
  have hmoved := position_lt_readStrictly ht
  rw [readStrictly_fst, readStrictly_fst, hsnd, remaining_behind]
  cases (form nestingLimit t.remaining).outcome with
  | ok datum => rfl
  | error fault =>
    refine congrArg (fun place => Except.error (ReadError.faulty fault place)) ?_
    show (if fault = .unexpectedClose then earlier.length + t.readStrictly.2.position - 1
      else earlier.length + t.readStrictly.2.position) = _
    split <;> omega

theorem recover_behind (outcome : Except ReadError Datum) :
    (t.behind earlier).recover (outcome.mapError (·.further earlier.length)) =
      (t.recover outcome).behind earlier := by
  unfold recover
  cases outcome with
  | ok datum => rfl
  | error error =>
    obtain ⟨fault, place⟩ | place := error
    · cases fault with
      | unclosedList | unexpectedClose => rfl
      | tooDeeplyNested =>
        refine eq_of_parts rfl rfl ?_
        show min (t.behind earlier).length (t.behind earlier).length =
          earlier.length + min t.length t.length
        rw [length_behind, Nat.min_self, Nat.min_self]
    · rfl

theorem unterminatedBetween_behind (start stop : Nat) :
    (t.behind earlier).unterminatedBetween (earlier.length + start) (earlier.length + stop) =
      (t.unterminatedBetween start stop).map (·.further earlier.length) := by
  unfold unterminatedBetween behind
  cases t.unterminated with
  | none => rfl
  | some place =>
    simp only [Option.map_some]
    split <;> split <;> first | rfl | omega

/-- Tokens that have been taken matter to the places of errors alone. -/
theorem read_behind (ht : t.isExhausted = false) :
    (t.behind earlier).read = t.read.behind earlier := by
  have hstrictly : (t.behind earlier).readStrictly = _ := readStrictly_behind ht
  unfold read Form.behind
  simp only [hstrictly, recover_behind, Form.mk.injEq, true_and, and_true]
  exact unterminatedBetween_behind _ _

/-! ## All forms of two streams -/

theorem isExhausted_before (hs : s.isExhausted = false) : (s.before t).isExhausted = false := by
  have hlt := lt_length_of_not_exhausted hs
  unfold isExhausted
  rw [length_before]
  exact decide_eq_false (Nat.not_le_of_lt (Nat.lt_add_right _ hlt))

theorem isExhausted_behind (t : Stream) (earlier : List Token) :
    (t.behind earlier).isExhausted = t.isExhausted := by
  unfold isExhausted
  rw [length_behind]
  exact decide_eq_decide.mpr (Nat.add_le_add_iff_left ..)

theorem readAll_behind (t : Stream) (earlier : List Token) :
    (t.behind earlier).readAll = t.readAll.map (·.behind earlier) := by
  fun_induction readAll t with
  | case1 t hended =>
    rw [readAll_of_exhausted ((isExhausted_behind t earlier).trans hended)]
    rfl
  | case2 t hmore ih =>
    rw [readAll_of_not_exhausted ((isExhausted_behind t earlier).trans hmore), read_behind hmore,
      List.map_cons, ← ih]
    rfl

/-- The forms of two streams, if those of the first one close and it does not end in a quote mark,
which would quote the first form of the second one. -/
theorem readAll_before (hopen : s.unterminated = none) (hlast : ¬ [.quote] <:+ s.tokens)
    (hcloses : ∀ form ∈ s.readAll, form.Closes) (ht : t.position = 0) :
    (s.before t).readAll = s.readAll.map (·.before t) ++ t.readAll.map (·.behind s.tokens) := by
  fun_induction readAll s with
  | case1 s hended =>
    rw [before_eq_behind hended ht, readAll_behind]
    rfl
  | case2 s hmore ih =>
    obtain ⟨hfirst, hlater⟩ := List.forall_mem_cons.mp hcloses
    rw [readAll_of_not_exhausted (isExhausted_before hmore), read_before hmore hopen hlast hfirst,
      List.map_cons, List.cons_append, ← s.tokens_read,
      ← ih (s.unterminated_read.trans hopen) (by rwa [tokens_read]) hlater]
    rfl

end Token.Stream

end DynLisp
