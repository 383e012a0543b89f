/-
  Proofs/StackReader.lean --- the reader with its recursion made into a stack.

  WHAT THIS FILE IS FOR.  `Reader.form` reads by recursive descent, and what it has
  begun is on the stack of its own calls.  Here is the same reader as a machine:
  one `Move` for each token, over a stack of the lists and quotes that are open.
  The machine has no recursion to hide in, so it says outright which of two
  faults wins, and where the reader stands when it stops.

  THE TWO AGREE.  `readStrictly_eq_scan`: on every stream, from every place, with
  the same datum or the same error and at the same place.
-/
import DynLisp.Form

set_option autoImplicit false

namespace DynLisp.Reader

/-! ## The machine -/

/-- Something that has been begun and not been ended. -/
inductive Begun where
  /-- a list, with its items so far in order -/
  | list (items : List Datum)
  /-- a quote mark, which waits for a datum -/
  | quote

/-- The end of a scan: a datum, or an error and the token that should not be there.  In both cases
with the place at which the scan has come to stand. -/
structure Stop where
  outcome : Except (ReadError × Option Token) Datum
  place : Nat

/-- What the machine does at one token. -/
inductive Move where
  | stop (stop : Stop)
  | go (stack : List Begun) (place : Nat)

/-- Hand over a datum, and go on at a place: the quotes that wait for it are ended by it, and what
comes of them goes to the end of the innermost list.  Outside of all lists it is the form itself. -/
def deliver (datum : Datum) (place : Nat) : List Begun → Move
  | [] => .stop ⟨.ok datum, place⟩
  | .quote :: outer => deliver (Datum.quoted datum) place outer
  | .list items :: outer => .go (.list (items ++ [datum]) :: outer) place

/-- What the machine does where a form is wanted.  The limit is checked before the token is looked
at. -/
def expect (stack : List Begun) (place : Nat) (next : Option Token) : Move :=
  if nestingLimit ≤ stack.length then
    .stop ⟨.error (.faulty .tooDeeplyNested place, none), place⟩
  else
    match next with
    | none => deliver .nil place stack
    | some .closing =>
      .stop ⟨.error (.faulty .unexpectedClose place, some .closing), place + 1⟩
    | some .opening => .go (.list [] :: stack) (place + 1)
    | some .quote => .go (.quote :: stack) (place + 1)
    | some (.string content) => deliver (.string content) (place + 1) stack
    | some (.word text) => deliver (Datum.ofWord text) (place + 1) stack

/-- What the machine does with a token, or at the end of the tokens.  Inside a list, both the end
and a `)` come before a form is wanted. -/
def move (tokens : List Token) (stack : List Begun) (place : Nat) : Move :=
  match stack, tokens[place]? with
  | .list _ :: _, none =>
    .stop ⟨.error (.faulty .unclosedList tokens.length, none), tokens.length⟩
  | .list items :: outer, some .closing => deliver (Datum.ofList items) (place + 1) outer
  | stack, next => expect stack place next

/-- How far a machine is from its end.  At the end of the tokens it may still hand over a datum. -/
def distance (tokens : List Token) (stack : List Begun) (place : Nat) : Nat :=
  2 * (tokens.length - place) + match stack with
    | .list _ :: _ => 0
    | _ => 1

theorem distance_le (tokens : List Token) (stack : List Begun) (place : Nat) :
    distance tokens stack place ≤ 2 * (tokens.length - place) + 1 := by
  unfold distance
  split <;> omega

/-- What a datum is handed over to is a list. -/
theorem distance_deliver (tokens : List Token) {datum : Datum} {stack stack' : List Begun}
    {place place' : Nat} (h : deliver datum place stack = .go stack' place') :
    place' = place ∧ distance tokens stack' place' = 2 * (tokens.length - place) := by
  induction stack generalizing datum with
  | nil => simp [deliver] at h
  | cons begun outer ih =>
    cases begun with
    | quote => exact ih h
    | list items =>
      simp only [deliver, Move.go.injEq] at h
      obtain ⟨rfl, rfl⟩ := h
      exact ⟨rfl, rfl⟩

/-- A token that the machine does not stop at is taken. -/
theorem place_expect {stack stack' : List Begun} {place place' : Nat} {token : Token}
    (h : expect stack place (some token) = .go stack' place') : place' = place + 1 := by
  unfold expect at h
  split at h
  · simp at h
  · cases token with
    | closing => simp at h
    | opening | quote =>
      simp only [Move.go.injEq] at h
      exact h.2.symm
    | string | word => exact (distance_deliver [] h).1

theorem place_move {tokens : List Token} {stack stack' : List Begun} {place place' : Nat}
    {token : Token} (hnext : tokens[place]? = some token)
    (h : move tokens stack place = .go stack' place') : place' = place + 1 := by
  unfold move at h
  rw [hnext] at h
  split at h
  · simp at h
  · exact (distance_deliver tokens h).1
  · exact place_expect h

theorem distance_move_lt {tokens : List Token} {stack stack' : List Begun} {place place' : Nat}
    (h : move tokens stack place = .go stack' place') :
    distance tokens stack' place' < distance tokens stack place := by
  cases hnext : tokens[place]? with
  | some token =>
    have hlt : place < tokens.length := (List.getElem?_eq_some_iff.mp hnext).1
    have hle := distance_le tokens stack' place'
    have hge : 2 * (tokens.length - place) ≤ distance tokens stack place := Nat.le_add_right _ _
    rw [place_move hnext h] at hle ⊢
    omega
  | none =>
    -- At the end of the tokens a datum is handed over, and only where no list is innermost.
    unfold move at h
    rw [hnext] at h
    split at h
    · simp at h
    · contradiction
    · rename_i hlist _
      unfold expect at h
      split at h
      · simp at h
      · rw [(distance_deliver tokens h).2]
        unfold distance
        split
        · exact absurd rfl (hlist _ _ rfl)
        · omega

/-- The end to which the machine comes from a place, with some things begun, the innermost first. -/
def scan (tokens : List Token) (stack : List Begun) (place : Nat) : Stop :=
  match _ : move tokens stack place with
  | .stop stop => stop
  | .go stack' place' => scan tokens stack' place'
termination_by distance tokens stack place
decreasing_by exact distance_move_lt (by assumption)

/-- What the machine comes to after a move. -/
def Move.resume (tokens : List Token) : Move → Stop
  | .stop ending => ending
  | .go stack place => scan tokens stack place

theorem scan_eq_resume (tokens : List Token) (stack : List Begun) (place : Nat) :
    scan tokens stack place = (move tokens stack place).resume tokens := by
  rw [scan]
  split <;> rename_i h <;> rw [h] <;> rfl

/-! ## What a read leaves -/

@[simp] theorem Reading.rest_widen {bound larger : Nat} (h : bound ≤ larger)
    (reading : Reading bound) : (reading.widen h).rest = reading.rest := by
  cases reading <;> rfl

@[simp] theorem Reading.outcome_widen {bound larger : Nat} (h : bound ≤ larger)
    (reading : Reading bound) : (reading.widen h).outcome = reading.outcome := by
  cases reading <;> rfl

/-- The tokens that are left stand at the end of those that there were. -/
theorem rest_items_suffix {form : (tokens : List Token) → Reading (tokens.length - 1)}
    (hform : ∀ tokens, (form tokens).rest <:+ tokens) (read : List Datum) (tokens : List Token) :
    (items form read tokens).rest <:+ tokens := by
  fun_induction items form read tokens with
  | case1 read => exact List.suffix_rfl
  | case2 read rest => exact List.suffix_cons _ rest
  | case3 read token more hclosing fault rest fits hread =>
    have hrest := hform (token :: more)
    rw [hread] at hrest
    exact hrest
  | case4 read token more hclosing item rest fits hread ih =>
    have hrest := hform (token :: more)
    rw [hread] at hrest
    rw [Reading.rest_widen]
    exact ih.trans hrest

theorem rest_form_suffix (room : Nat) (tokens : List Token) :
    (form room tokens).rest <:+ tokens := by
  induction room generalizing tokens with
  | zero => exact List.suffix_rfl
  | succ room ih =>
    cases tokens with
    | nil => exact List.suffix_rfl
    | cons token rest =>
      cases token with
      | string | word | closing => exact List.suffix_cons _ rest
      | opening => exact (rest_items_suffix ih [] rest).trans (List.suffix_cons _ rest)
      | quote =>
        have hrest := ih rest
        unfold form
        split <;> rename_i hread <;> rw [hread] at hrest <;>
          exact hrest.trans (List.suffix_cons _ rest)

/-! ## The two readers agree -/

/-- The end of a read that has failed, with the machine at a place. -/
def Stop.failed (fault : Fault) (place : Nat) : Stop :=
  let error := ReadError.faulty fault (if fault = .unexpectedClose then place - 1 else place)
  ⟨.error (error, error.found), place⟩

/-- What the end of a read is to the machine, with some things begun around it. -/
def Reading.move {bound : Nat} (total : Nat) (stack : List Begun) : Reading bound → Move
  | done datum rest _ => deliver datum (total - rest.length) stack
  | failed fault rest _ => .stop (.failed fault (total - rest.length))

theorem Reading.move_widen {bound larger : Nat} (h : bound ≤ larger) (total : Nat)
    (stack : List Begun) (reading : Reading bound) :
    (reading.widen h).move total stack = reading.move total stack := by
  cases reading <;> rfl

section Agreement

variable {tokens : List Token}

/-- At the place where some last tokens start, the first of them is next. -/
theorem getElem?_place {left : List Token} (h : left <:+ tokens) :
    tokens[tokens.length - left.length]? = left.head? := by
  obtain ⟨taken, rfl⟩ := h
  rw [List.length_append, Nat.add_sub_cancel, List.getElem?_append_right (Nat.le_refl _),
    Nat.sub_self, List.head?_eq_getElem?]

theorem place_succ {token : Token} {rest : List Token} (h : token :: rest <:+ tokens) :
    tokens.length - (token :: rest).length + 1 = tokens.length - rest.length := by
  have hle := h.length_le
  rw [List.length_cons] at hle ⊢
  omega

/-- Inside a list, a form is wanted unless the list ends. -/
theorem move_list_of_ne {items : List Datum} {outer : List Begun} {place : Nat} {token : Token}
    (hne : token ≠ .closing) (hnext : tokens[place]? = some token) :
    move tokens (.list items :: outer) place =
      expect (.list items :: outer) place (some token) := by
  unfold move
  rw [hnext]
  split
  · contradiction
  · rename_i heq
    exact absurd (Option.some.inj heq) hne
  · rfl

/-- After a quote mark, a form is always wanted. -/
theorem move_quote (stack : List Begun) (place : Nat) :
    move tokens (.quote :: stack) place = expect (.quote :: stack) place tokens[place]? := by
  unfold move
  split
  · rename_i heq _
    exact absurd heq (by simp)
  · rename_i heq _
    exact absurd heq (by simp)
  · rfl

/-- A quote mark is begun, and the datum after it is handed over to it. -/
theorem move_form_quote (room total : Nat) (stack : List Begun) (rest : List Token) :
    (form (room + 1) (.quote :: rest)).move total stack =
      (form room rest).move total (.quote :: stack) := by
  rw [form]
  cases form room rest <;> rfl

/-- The rest of a list, if its items are read as the machine reads them. -/
theorem scan_items {form : (tokens : List Token) → Reading (tokens.length - 1)}
    (outer : List Begun) (hrest : ∀ left, (form left).rest <:+ left)
    (hform : ∀ (items : List Datum) (left : List Token), left <:+ tokens →
      (expect (.list items :: outer) (tokens.length - left.length) left.head?).resume tokens =
        ((form left).move tokens.length (.list items :: outer)).resume tokens)
    (read : List Datum) {left : List Token} (hleft : left <:+ tokens) :
    scan tokens (.list read.reverse :: outer) (tokens.length - left.length) =
      ((items form read left).move tokens.length outer).resume tokens := by
  have hnext := getElem?_place hleft
  rw [scan_eq_resume]
  fun_induction items form read left with
  | case1 read =>
    simp only [move, hnext]
    rfl
  | case2 read rest =>
    simp only [move, hnext, List.head?_cons, place_succ hleft]
    rfl
  | case3 read token more hclosing fault rest fits hread =>
    have hitem := hform read.reverse (token :: more) hleft
    rw [List.head?_cons, hread] at hitem
    rw [move_list_of_ne (by simpa using hclosing) hnext, hitem]
    rfl
  | case4 read token more hclosing item rest fits hread ih =>
    have hitem := hform read.reverse (token :: more) hleft
    have hsuffix := hrest (token :: more)
    rw [hread] at hsuffix
    rw [List.head?_cons, hread] at hitem
    have hmore := ih (hsuffix.trans hleft) (getElem?_place (hsuffix.trans hleft))
    rw [move_list_of_ne (by simpa using hclosing) hnext, hitem, Reading.move_widen, ← hmore,
      ← scan_eq_resume, List.reverse_cons]
    rfl

/-- Where a form is wanted, the machine comes to what the descent comes to. -/
theorem resume_expect (room : Nat) (stack : List Begun) (hroom : stack.length + room = nestingLimit)
    {left : List Token} (hleft : left <:+ tokens) :
    (expect stack (tokens.length - left.length) left.head?).resume tokens =
      ((form room left).move tokens.length stack).resume tokens := by
  induction room generalizing stack left with
  | zero =>
    unfold expect
    rw [if_pos (Nat.le_of_eq (hroom.symm.trans (Nat.add_zero _)))]
    rfl
  | succ room ih =>
    unfold expect
    rw [if_neg (by omega)]
    cases left with
    | nil => rfl
    | cons token rest =>
      have hplace := place_succ hleft
      have hrest : rest <:+ tokens := (List.suffix_cons token rest).trans hleft
      cases token with
      | string | word =>
        simp only [List.head?_cons, hplace]
        rfl
      | closing =>
        show _ = Stop.failed .unexpectedClose (tokens.length - rest.length)
        rw [← hplace]
        rfl
      | opening =>
        have hitems := scan_items stack (rest_form_suffix room)
          (fun items left hleft => ih (.list items :: stack) (by simp; omega) hleft) [] hrest
        simp only [List.head?_cons, hplace]
        exact hitems
      | quote =>
        have hquoted := ih (.quote :: stack) (by simp; omega) hrest
        simp only [List.head?_cons, hplace]
        show scan tokens (.quote :: stack) (tokens.length - rest.length) = _
        rw [scan_eq_resume, move_quote, getElem?_place hrest, hquoted, move_form_quote]

end Agreement

end DynLisp.Reader

namespace DynLisp.Token.Stream

open Reader

/-- From the place where a stream stands, the machine comes to what the descent comes to. -/
theorem scan_position (s : Stream) :
    scan s.tokens [] s.position =
      ((form nestingLimit s.remaining).move s.tokens.length []).resume s.tokens := by
  have hsuffix : s.remaining <:+ s.tokens := List.drop_suffix _ _
  have hplace : s.tokens.length - s.remaining.length = s.position := by
    have hle := s.position_le
    rw [remaining, List.length_drop]
    omega
  have hexpect := resume_expect nestingLimit [] (Nat.zero_add _) hsuffix
  rw [← getElem?_place hsuffix, hplace] at hexpect
  rw [scan_eq_resume]
  exact hexpect

/-- The reader that recurses and the one that keeps a stack come to the same: the same datum, or the
same error with the same token complained of, and the same place to read on from. -/
theorem readStrictly_eq_scan (s : Stream) :
    let stop := scan s.tokens [] s.position
    (s.readStrictly.1.mapError fun error => (error, error.found)) = stop.outcome ∧
      s.readStrictly.2.position = stop.place ∧ s.readStrictly.2 = s.seek stop.place := by
  intro stop
  have hstop : stop = _ := scan_position s
  rw [hstop]
  unfold readStrictly
  cases form nestingLimit s.remaining with
  | done datum rest fits => exact ⟨rfl, position_leaving s rest, rfl⟩
  | failed fault rest fits =>
    simp only [Reading.move, Move.resume, Stop.failed, position_leaving]
    exact ⟨rfl, rfl, rfl⟩

end DynLisp.Token.Stream
