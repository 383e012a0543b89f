/-
  Proofs/Coverage.lean --- streams read to their end.

  WHAT THIS FILE IS FOR.  Forms are taken off a stream by one call after another,
  each of which starts where the one before it has stopped.  Here such a sequence of
  calls is a list of `Turn`s, and `takeTurns_covers` says that it comes to an end, that
  every token is taken in one turn and in one only, and that a string literal without
  its second quote is reported once, at the head of the turn that takes it.

  THE STEP.  All calls move a stream as `Token.Stream.read` does, and report the errors
  of its form before anything else (`Reads`).  What holds of the turns is proved of any
  such call, and so both of reading alone and of reading with evaluation.
-/
import DynLisp.Proofs.Reports
import DynLisp.Proofs.StackReader

set_option autoImplicit false

namespace DynLisp

open Evaluation

/-! ## One read -/

namespace Reader

/-- What is left after a read that has any room is part of what comes after the first token. -/
theorem rest_form_succ_suffix (room : Nat) (token : Token) (rest : List Token) :
    (form (room + 1) (token :: rest)).rest <:+ rest := by
  cases token with
  | string | word | closing => exact List.suffix_rfl
  | opening => exact rest_items_suffix (rest_form_suffix room) [] rest
  | quote =>
    have hrest := rest_form_suffix room rest
    unfold form
    split <;> rename_i hread <;> rw [hread] at hrest <;> exact hrest

end Reader

namespace Token.Stream

variable {s : Stream}

theorem lt_length_of_not_exhausted (h : s.isExhausted = false) : s.position < s.length := by
  simpa [isExhausted] using h

theorem isExhausted_of_sub_le_zero (h : s.length - s.position ≤ 0) : s.isExhausted = true := by
  simp only [isExhausted, decide_eq_true_eq]
  omega

theorem readAll_of_exhausted (h : s.isExhausted = true) : s.readAll = [] := by
  rw [readAll]
  split
  · rfl
  · rename_i hmore
    rw [h] at hmore
    exact absurd hmore (by simp)

theorem readAll_of_not_exhausted (h : s.isExhausted = false) :
    s.readAll = s.read :: s.read.after.readAll := by
  rw [readAll]
  split
  · rename_i hended
    rw [h] at hended
    exact absurd hended (by simp)
  · rfl

theorem readStrictly_snd (s : Stream) :
    s.readStrictly.2 = s.leaving (Reader.form Reader.nestingLimit s.remaining).rest := by
  unfold readStrictly
  cases Reader.form Reader.nestingLimit s.remaining <;> rfl

/-- A strict read takes a token at least, whatever comes of it. -/
theorem position_lt_readStrictly (h : s.isExhausted = false) :
    s.position < s.readStrictly.2.position := by
  have hlt := lt_length_of_not_exhausted h
  have hlength := s.length_remaining
  obtain ⟨token, rest, hremaining⟩ : ∃ token rest, s.remaining = token :: rest :=
    List.exists_cons_of_length_pos (by omega)
  have hrest : (Reader.form Reader.nestingLimit (token :: rest)).rest.length ≤ rest.length :=
    (Reader.rest_form_succ_suffix 511 token rest).length_le
  rw [readStrictly_snd, position_leaving, hremaining]
  rw [hremaining, List.length_cons] at hlength
  omega

theorem position_readStrictly_le (s : Stream) : s.readStrictly.2.position ≤ s.length := by
  rw [readStrictly_snd, position_leaving]
  exact Nat.sub_le _ _

theorem tokens_read (s : Stream) : s.read.after.tokens = s.tokens := by
  show (s.readStrictly.2.recover s.readStrictly.1).tokens = s.tokens
  rw [readStrictly_snd]
  unfold recover
  split <;> rfl

theorem unterminated_read (s : Stream) : s.read.after.unterminated = s.unterminated := by
  show (s.readStrictly.2.recover s.readStrictly.1).unterminated = s.unterminated
  rw [readStrictly_snd]
  unfold recover
  split <;> rfl

/-- A read leaves the tokens of a stream as they are, and moves on among them. -/
theorem read_after (h : s.isExhausted = false) :
    s.read.after.length = s.length ∧ s.read.after.unterminated = s.unterminated ∧
      s.position < s.read.after.position := by
  have hlength : s.read.after.length = s.length := congrArg List.length s.tokens_read
  have hless := s.length_remaining_read_lt h
  rw [length_remaining, length_remaining, hlength] at hless
  exact ⟨hlength, s.unterminated_read, by omega⟩

/-! ## The open string literal -/

/-- What is to be reported of the open string literal, if it is among the tokens taken between two
places. -/
theorem unterminatedBetween_append (s : Stream) {start middle stop : Nat} (h : start ≤ middle)
    (h' : middle ≤ stop) :
    (s.unterminatedBetween start middle).toList ++ (s.unterminatedBetween middle stop).toList =
      (s.unterminatedBetween start stop).toList := by
  unfold unterminatedBetween
  cases s.unterminated with
  | none => rfl
  | some place =>
    dsimp only
    split <;> split <;> split <;> first | rfl | omega

theorem of_unterminatedBetween {start stop : Nat} {error : ReadError}
    (h : s.unterminatedBetween start stop = some error) :
    ∃ place, error = .unterminatedString place ∧ start ≤ place ∧ place < stop := by
  unfold unterminatedBetween at h
  split at h
  · rename_i place _
    split at h
    · rename_i hin
      exact ⟨place, (Option.some.inj h).symm, hin⟩
    · simp at h
  · simp at h

theorem unterminatedBetween_self (s : Stream) (place : Nat) :
    s.unterminatedBetween place place = none := by
  unfold unterminatedBetween
  cases s.unterminated with
  | none => rfl
  | some open' => exact if_neg (by omega)

/-- Whatever string literal a text has left open is among its tokens. -/
theorem unterminatedBetween_ofText (comments : Bool) (text : String) :
    let stream := ofText comments text
    stream.unterminatedBetween 0 stream.length =
      stream.unterminated.map ReadError.unterminatedString := by
  intro stream
  unfold unterminatedBetween
  cases hopen : stream.unterminated with
  | none => rfl
  | some place =>
    have hlt : place < stream.length := by
      obtain ⟨hlt, -⟩ := List.findIdx?_eq_some_iff_getElem.mp hopen
      simpa [stream, ofText, length] using hlt
    exact if_pos ⟨Nat.zero_le _, hlt⟩

/-- The errors of a form: the string literal that it leaves open, and then others, if any. -/
theorem errors_read (s : Stream) :
    ∃ faults, s.read.errors =
        (s.unterminatedBetween s.position s.read.after.position).toList ++ faults ∧
      ∀ error ∈ faults, ∃ fault place, error = .faulty fault place := by
  refine ⟨_, rfl, ?_⟩
  intro error herror
  have houtcome : s.read.outcome = s.readStrictly.1 := rfl
  rw [houtcome] at herror
  unfold readStrictly at herror
  cases hform : Reader.form Reader.nestingLimit s.remaining with
  | done datum rest fits =>
    rw [hform] at herror
    simp at herror
  | failed fault rest fits =>
    rw [hform] at herror
    exact ⟨fault, _, List.mem_singleton.mp herror⟩

end Token.Stream

/-! ## Turns -/

/-- One call to a reader: the places where it starts and stops, the value that it gives, and what
it reports. -/
structure Turn (α : Type) where
  start : Nat
  stop : Nat
  value : α
  reported : List Condition

/-- Some calls in order, with the stream and the state that they leave. -/
structure Course (σ α : Type) where
  turns : List (Turn α)
  stream : Token.Stream
  state : σ

/-- A way to read: one turn with the stream and the state after it, or none. -/
abbrev Call (σ α : Type) := Token.Stream → σ → Option (Turn α × Token.Stream × σ)

variable {σ α : Type}

/-- Call until there is no turn any more, but only so many times. -/
def takeTurns (call : Call σ α) : (calls : Nat) → Token.Stream → σ → Course σ α
  | 0, stream, s => ⟨[], stream, s⟩
  | calls + 1, stream, s =>
    match call stream s with
    | none => ⟨[], stream, s⟩
    | some (turn, stream, s) =>
      let course := takeTurns call calls stream s
      { course with turns := turn :: course.turns }

/-- Read one form, and add its errors to what has been reported, unless the stream is at its end. -/
def readTurn : Call (List Condition) Datum := fun stream reported =>
  if stream.isExhausted then none
  else
    let form := stream.read
    let errors := form.errors.map .unreadable
    some (⟨stream.position, form.after.position, form.datum, errors⟩, form.after,
      reported ++ errors)

/-- Evaluate the next form, as a session does. -/
def evaluateTurn : Call Session Value := fun stream s =>
  let ended := (evaluateNext stream).run s
  ended.1.1.map fun v =>
    (⟨stream.position, ended.1.2.position, v, ended.2.reported.drop s.reported.length⟩,
      ended.1.2, ended.2)

/-- The condition is a string literal without its second quote. -/
def Condition.isUnterminated : Condition → Bool
  | unreadable (.unterminatedString _) => true
  | _ => false

theorem Condition.isUnterminated_eq_false {condition : Condition}
    (h : condition.isUnreadable = false) : condition.isUnterminated = false := by
  cases condition with
  | unreadable error => simp [isUnreadable] at h
  | arithmetic | unknownFunction | invalidCall | depthExceeded => rfl

namespace Turn

/-- The turn takes the token at a place. -/
def takes (turn : Turn α) (place : Nat) : Bool := turn.start ≤ place && place < turn.stop

/-- If the turn reports an open string literal, it does so before all else, and takes it. -/
def OpensFirst (turn : Turn α) : Prop :=
  ∀ before place after,
    turn.reported = before ++ .unreadable (.unterminatedString place) :: after →
      before = [] ∧ turn.takes place = true

end Turn

/-- The turns lead from one place to another: each takes a token at least, and the next one starts
where it stops. -/
def Adjoin : Nat → List (Turn α) → Nat → Prop
  | start, [], stop => start = stop
  | start, turn :: more, stop =>
    turn.start = start ∧ turn.start < turn.stop ∧ Adjoin turn.stop more stop

theorem Adjoin.le {turns : List (Turn α)} {start stop : Nat} (h : Adjoin start turns stop) :
    start ≤ stop := by
  induction turns generalizing start with
  | nil => exact Nat.le_of_eq h
  | cons turn more ih =>
    obtain ⟨rfl, hlt, hmore⟩ := h
    exact Nat.le_trans (Nat.le_of_lt hlt) (ih hmore)

/-- Turns that adjoin take every token between their ends once, and no other. -/
theorem Adjoin.countP_takes {turns : List (Turn α)} {start stop : Nat}
    (h : Adjoin start turns stop) (place : Nat) :
    turns.countP (fun turn => turn.takes place) =
      if start ≤ place ∧ place < stop then 1 else 0 := by
  induction turns generalizing start with
  | nil =>
    obtain rfl : start = stop := h
    rw [if_neg (by omega)]
    rfl
  | cons turn more ih =>
    obtain ⟨rfl, hlt, hmore⟩ := h
    have hle := hmore.le
    rw [List.countP_cons, ih hmore]
    simp only [Turn.takes, Bool.and_eq_true, decide_eq_true_eq]
    split <;> split <;> split <;> first | rfl | omega

/-- A call that reads as `Token.Stream.read` does.  It reports the errors of the form first, and
keeps a log of all that is reported. -/
structure Reads (Holds : σ → Prop) (log : σ → List Condition) (call : Call σ α) : Prop where
  ended : ∀ stream s, stream.isExhausted = true → call stream s = none
  taken : ∀ stream s, stream.isExhausted = false → Holds s → ∃ turn s',
    call stream s = some (turn, stream.read.after, s') ∧ Holds s' ∧
      turn.start = stream.position ∧ turn.stop = stream.read.after.position ∧
      log s' = log s ++ turn.reported ∧
      ∃ more, turn.reported =
          (stream.unterminatedBetween turn.start turn.stop).toList.map .unreadable ++ more ∧
        ∀ condition ∈ more, condition.isUnterminated = false

section Reports

variable {stream : Token.Stream} {turn : Turn α} {more : List Condition}
  (hreported : turn.reported =
    (stream.unterminatedBetween turn.start turn.stop).toList.map .unreadable ++ more)
  (hmore : ∀ condition ∈ more, condition.isUnterminated = false)
include hreported hmore

theorem Turn.filter_reported : turn.reported.filter Condition.isUnterminated =
    (stream.unterminatedBetween turn.start turn.stop).toList.map .unreadable := by
  have hnone : more.filter Condition.isUnterminated = [] :=
    List.filter_eq_nil_iff.mpr fun condition hc => Bool.eq_false_iff.mp (hmore condition hc)
  rw [hreported, List.filter_append, hnone, List.append_nil, List.filter_eq_self]
  intro condition hc
  obtain ⟨error, herror, rfl⟩ := List.mem_map.mp hc
  obtain ⟨place, rfl, -⟩ := Token.Stream.of_unterminatedBetween (Option.mem_toList.mp herror)
  rfl

theorem Turn.opensFirst : turn.OpensFirst := by
  intro before place after hsplit
  have hlater : .unreadable (.unterminatedString place) ∉ more :=
    fun hmem => absurd (hmore _ hmem) (by simp [Condition.isUnterminated])
  rw [hreported] at hsplit
  cases hopen : stream.unterminatedBetween turn.start turn.stop with
  | none =>
    rw [hopen] at hsplit
    have hrest : more = before ++ .unreadable (.unterminatedString place) :: after := hsplit
    exact absurd (by simp [hrest]) hlater
  | some error =>
    rw [hopen] at hsplit
    cases before with
    | cons first before =>
      have hrest : more = before ++ .unreadable (.unterminatedString place) :: after :=
        (List.cons.inj hsplit).2
      exact absurd (by simp [hrest]) hlater
    | nil =>
      obtain ⟨hfirst, -⟩ := List.cons.inj hsplit
      obtain ⟨place', heq, hin⟩ := Token.Stream.of_unterminatedBetween hopen
      obtain rfl : place' = place := by simpa [heq] using hfirst
      exact ⟨rfl, by simpa [Turn.takes] using hin⟩

end Reports

/-- The turns that there are from where a stream stands, and all that is reported meanwhile. -/
structure Proceeds (log : σ → List Condition) (stream : Token.Stream) (s : σ)
    (course : Course σ α) : Prop where
  ended : course.stream.isExhausted = true
  adjoin : Adjoin stream.position course.turns stream.length
  logged : log course.state = log s ++ course.turns.flatMap Turn.reported
  reported : (course.turns.flatMap Turn.reported).filter Condition.isUnterminated =
    (stream.unterminatedBetween stream.position stream.length).toList.map .unreadable
  opensFirst : ∀ turn ∈ course.turns, turn.OpensFirst

/-- At the end of a stream there is nothing to be done. -/
theorem proceeds_ended {log : σ → List Condition} {stream : Token.Stream} {s : σ}
    (hended : stream.isExhausted = true) :
    Proceeds (α := α) log stream s ⟨[], stream, s⟩ := by
  have hposition : stream.position = stream.length := by
    have hle : stream.length ≤ stream.position := by
      simpa [Token.Stream.isExhausted] using hended
    exact Nat.le_antisymm stream.position_le hle
  refine ⟨hended, hposition, (List.append_nil _).symm, ?_, by simp⟩
  rw [hposition, Token.Stream.unterminatedBetween_self]
  rfl

/-- As many calls as there are tokens left come to the end of the stream. -/
theorem Reads.proceeds {Holds : σ → Prop} {log : σ → List Condition} {call : Call σ α}
    (h : Reads Holds log call) {calls : Nat} {stream : Token.Stream} {s : σ} (hs : Holds s)
    (hcalls : stream.length - stream.position ≤ calls) :
    Proceeds log stream s (takeTurns call calls stream s) := by
  induction calls generalizing stream s with
  | zero =>
    exact proceeds_ended (Token.Stream.isExhausted_of_sub_le_zero hcalls)
  | succ calls ih =>
    unfold takeTurns
    cases hended : stream.isExhausted with
    | true =>
      rw [h.ended stream s hended]
      exact proceeds_ended hended
    | false =>
      obtain ⟨turn, s', hcall, hs', hstart, hstop, hlog, more, hreported, hmore⟩ :=
        h.taken stream s hended hs
      obtain ⟨hlength, hopen, hlt⟩ := Token.Stream.read_after hended
      have hrest : Proceeds log stream.read.after s' (takeTurns call calls stream.read.after s') :=
        ih hs' (by omega)
      have hle := hrest.adjoin.le
      rw [hlength, ← hstop] at hle
      have hsplit := stream.unterminatedBetween_append
        (show turn.start ≤ turn.stop by omega) hle
      have hsame : ∀ start stop, stream.read.after.unterminatedBetween start stop =
          stream.unterminatedBetween start stop := by
        intro start stop
        unfold Token.Stream.unterminatedBetween
        rw [hopen]
      rw [hcall]
      constructor
      case ended => exact hrest.ended
      case adjoin =>
        refine ⟨hstart, by omega, ?_⟩
        rw [hstop, ← hlength]
        exact hrest.adjoin
      case logged =>
        rw [hrest.logged, hlog, List.append_assoc]
        rfl
      case reported =>
        rw [List.flatMap_cons, List.filter_append, Turn.filter_reported hreported hmore,
          hrest.reported, hsame, hlength, ← hstop, ← hstart, ← List.map_append, hsplit]
      case opensFirst =>
        intro other hother
        rcases List.mem_cons.mp hother with rfl | hother
        · exact Turn.opensFirst hreported hmore
        · exact hrest.opensFirst other hother

/-! ## Reading alone, and with evaluation -/

theorem isUnterminated_of_faults {faults : List ReadError}
    (h : ∀ error ∈ faults, ∃ fault place, error = .faulty fault place) :
    ∀ condition ∈ faults.map Condition.unreadable, condition.isUnterminated = false := by
  intro condition hc
  obtain ⟨error, herror, rfl⟩ := List.mem_map.mp hc
  obtain ⟨fault, place, rfl⟩ := h error herror
  rfl

theorem reads_readTurn : Reads (fun _ => True) id readTurn where
  ended stream reported h := by simp [readTurn, h]
  taken stream reported h _ := by
    obtain ⟨faults, herrors, hfaults⟩ := stream.errors_read
    refine ⟨_, _, by simp only [readTurn, h]; rfl, trivial, rfl, rfl, rfl,
      faults.map .unreadable, ?_, isUnterminated_of_faults hfaults⟩
    rw [← List.map_append, ← herrors]

/-- A form that has been read is reported on first, and evaluated then. -/
theorem Session.Valid.reported_evaluateForm {s : Session} (h : s.Valid) (form : Form) :
    ∃ more, ((evaluateForm form).run s).2.reported =
        s.reported ++ (form.errors.map .unreadable ++ more) ∧
      ∀ condition ∈ more, condition.isUnreadable = false := by
  unfold evaluateForm
  rw [run_bind, h.run_reports]
  cases form.outcome with
  | error trouble => exact ⟨[], by rw [List.append_nil]; rfl, by simp⟩
  | ok datum =>
    let loaded := ((inMemory (Memory.making (Store.load datum))).run
      { s with reported := s.reported ++ form.errors.map .unreadable })
    obtain ⟨more, hmore, hmeaning⟩ := Session.Remarks.evaluate loaded.1 loaded.2
    refine ⟨more, ?_, hmeaning⟩
    rw [← List.append_assoc]
    exact hmore

theorem evaluateTurn_of_exhausted {stream : Token.Stream} (h : stream.isExhausted = true)
    (s : Session) : evaluateTurn stream s = none := by
  have hnext : (evaluateNext stream).run s = ((none, stream), s) := by
    simp only [evaluateNext, h]
    rfl
  simp only [evaluateTurn, hnext]
  rfl

theorem evaluateTurn_of_not_exhausted {stream : Token.Stream} (h : stream.isExhausted = false)
    (s : Session) :
    let ended := (evaluateForm stream.read).run s
    evaluateTurn stream s =
      some (⟨stream.position, stream.read.after.position, ended.1,
        ended.2.reported.drop s.reported.length⟩, stream.read.after, ended.2) := by
  intro ended
  have hnext : (evaluateNext stream).run s = ((some ended.1, stream.read.after), ended.2) := by
    simp only [evaluateNext, h]
    rfl
  simp only [evaluateTurn, hnext]
  rfl

theorem reads_evaluateTurn : Reads Session.Valid Session.reported evaluateTurn where
  ended stream s h := evaluateTurn_of_exhausted h s
  taken stream s h hs := by
    obtain ⟨faults, herrors, hfaults⟩ := stream.errors_read
    obtain ⟨more, hreported, hmeaning⟩ := hs.reported_evaluateForm stream.read
    have hdrop : ((evaluateForm stream.read).run s).2.reported.drop s.reported.length =
        stream.read.errors.map .unreadable ++ more := by
      rw [hreported, List.drop_left]
    refine ⟨_, _, evaluateTurn_of_not_exhausted h s, (hs.read_keeps stream.read).1, rfl, rfl, ?_,
      faults.map .unreadable ++ more, ?_, ?_⟩
    · dsimp only
      rw [hdrop]
      exact hreported
    · dsimp only
      rw [hdrop, herrors, List.map_append, List.append_assoc]
    · intro condition hc
      rcases List.mem_append.mp hc with hc | hc
      · exact isUnterminated_of_faults hfaults condition hc
      · exact Condition.isUnterminated_eq_false (hmeaning condition hc)

/-- To evaluate all forms of a stream is to take turns until there is none any more. -/
theorem run_evaluateForms {calls : Nat} {stream : Token.Stream}
    (hcalls : stream.length - stream.position ≤ calls) (s : Session) :
    (stream.readAll.mapM evaluateForm).run s =
      ((takeTurns evaluateTurn calls stream s).turns.map Turn.value,
        (takeTurns evaluateTurn calls stream s).state) := by
  induction calls generalizing stream s with
  | zero =>
    have hended : stream.isExhausted = true := Token.Stream.isExhausted_of_sub_le_zero hcalls
    rw [Token.Stream.readAll_of_exhausted hended]
    rfl
  | succ calls ih =>
    unfold takeTurns
    cases hended : stream.isExhausted with
    | true =>
      rw [Token.Stream.readAll_of_exhausted hended, evaluateTurn_of_exhausted hended]
      rfl
    | false =>
      obtain ⟨hlength, -, hlt⟩ := Token.Stream.read_after hended
      have hmore := @ih stream.read.after (by omega) ((evaluateForm stream.read).run s).2
      rw [Token.Stream.readAll_of_not_exhausted hended, evaluateTurn_of_not_exhausted hended,
        List.mapM_cons, run_bind, run_bind, hmore]
      rfl

/-! ## To the end -/

/-- What has come of reading a stream from its start, with all that has been reported meanwhile:
the end has been reached; the turns divide the tokens up among them, so that each is taken in one
turn; and of open string literals the one that the stream has noted is reported, if any, by the turn
that takes it and before all else. -/
structure Covers (stream : Token.Stream) (course : Course σ α) (reported : List Condition) :
    Prop where
  ended : course.stream.isExhausted = true
  adjoin : Adjoin 0 course.turns stream.length
  once : ∀ place < stream.length, course.turns.countP (fun turn => turn.takes place) = 1
  logged : reported = course.turns.flatMap Turn.reported
  unterminated : reported.filter Condition.isUnterminated =
    (stream.unterminated.map fun place => Condition.unreadable (.unterminatedString place)).toList
  opensFirst : ∀ turn ∈ course.turns, turn.OpensFirst

theorem Reads.covers {Holds : σ → Prop} {log : σ → List Condition} {call : Call σ α}
    (h : Reads Holds log call) {s : σ} (hs : Holds s) (comments : Bool) (text : String)
    {calls : Nat} (hcalls : (Token.Stream.ofText comments text).length ≤ calls) :
    ∃ reported, log (takeTurns call calls (.ofText comments text) s).state = log s ++ reported ∧
      Covers (.ofText comments text) (takeTurns call calls (.ofText comments text) s) reported := by
  have hproceeds : Proceeds log (.ofText comments text) s
      (takeTurns call calls (.ofText comments text) s) := h.proceeds hs hcalls
  obtain ⟨hended, hadjoin, hlogged, hreported, hfirst⟩ := hproceeds
  refine ⟨_, hlogged, hended, hadjoin, ?_, rfl, ?_, hfirst⟩
  · intro place hplace
    exact (hadjoin.countP_takes place).trans (if_pos ⟨Nat.zero_le place, hplace⟩)
  · rw [hreported]
    have hopen := Token.Stream.unterminatedBetween_ofText comments text
    rw [show (Token.Stream.ofText comments text).position = 0 from rfl, hopen]
    cases (Token.Stream.ofText comments text).unterminated <;> rfl

/-- However a text is cut, with comments or without, to read it form by form comes to an end, after
no more calls than there are tokens.  This is so of reading alone, and in any session of reading
with evaluation, which is how a session evaluates a text.  Strict reading moves on as well, from any
place of any stream but its end. -/
theorem takeTurns_covers {s : Session} (h : s.Reachable) (comments : Bool) (text : String)
    {calls : Nat} (hcalls : (Token.Stream.ofText comments text).length ≤ calls) :
    let stream := Token.Stream.ofText comments text
    let read := takeTurns readTurn calls stream []
    let evaluated := takeTurns evaluateTurn calls stream s
    Covers stream read read.state ∧
      (∃ reported, evaluated.state.reported = s.reported ++ reported ∧
        Covers stream evaluated reported) ∧
      (stream.readAll.mapM evaluateForm).run s =
        (evaluated.turns.map Turn.value, evaluated.state) ∧
      ∀ other : Token.Stream, other.isExhausted = false →
        other.position < other.readStrictly.2.position ∧
          other.readStrictly.2.position ≤ other.length := by
  intro stream read evaluated
  obtain ⟨reported, hlogged, hcovers⟩ :=
    reads_readTurn.covers (s := []) trivial comments text hcalls
  refine ⟨?_, reads_evaluateTurn.covers h.valid comments text hcalls,
    run_evaluateForms hcalls s, ?_⟩
  · rw [show read.state = reported from hlogged]
    exact hcovers
  · exact fun other hmore => ⟨Token.Stream.position_lt_readStrictly hmore,
      other.position_readStrictly_le⟩

/-- A parenthesis too many, and a list in which a string literal is left open. -/
theorem takeTurns_covers_open :
    let stream := Token.Stream.ofText false ") (a \"b"
    let read := takeTurns readTurn 4 stream []
    let evaluated := takeTurns evaluateTurn 4 stream (Session.start {})
    (Session.start {}).Reachable ∧ stream.length = 4 ∧ Covers stream read read.state ∧
      evaluated.turns.map (fun turn => (turn.start, turn.stop)) = [(0, 1), (1, 4)] ∧
      evaluated.state.reported = [.unreadable (.faulty .unexpectedClose 0),
        .unreadable (.unterminatedString 3), .unreadable (.faulty .unclosedList 4)] := by
  have hlength : (Token.Stream.ofText false ") (a \"b").length = 4 := by decide +kernel
  have hcovers := takeTurns_covers (.start {}) false ") (a \"b" (Nat.le_of_eq hlength)
  exact ⟨.start {}, hlength, hcovers.1, by decide +kernel, by decide +kernel⟩

end DynLisp
