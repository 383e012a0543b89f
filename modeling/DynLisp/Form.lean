/-
  Form.lean --- the forms of a stream, one after another.

  WHAT THIS FILE IS FOR.  `Reader.form` works on bare tokens.  Here a read starts
  where a stream stands and moves the stream on, and its fault gets a place.
  `readStrictly` reports the fault and leaves the stream where the read ended.
  `read` goes on from there: after a form that is nested too deeply nothing of
  the stream can be made sense of, so all of it is given up, while any other
  fault has already taken the tokens it complains of.  `readAll` repeats `read`
  to the end of the stream, which each of its forms brings nearer.
-/
import DynLisp.Reader
import DynLisp.Token.Stream

set_option autoImplicit false

namespace DynLisp

/-- What is wrong with the text of a form, and at which token. -/
inductive ReadError where
  | faulty (fault : Reader.Fault) (place : Nat)
  /-- a string literal that ran to the end of the text; it is read all the same -/
  | unterminatedString (place : Nat)
  deriving DecidableEq, Repr

namespace ReadError

/-- The index of the token at which the trouble shows. -/
def place : ReadError → Nat
  | faulty _ place => place
  | unterminatedString place => place

/-- The error in words. -/
def text : ReadError → String
  | faulty .unclosedList _ => "Expected ')' before end of input"
  | faulty .unexpectedClose _ => "Unexpected ')'"
  | faulty .tooDeeplyNested _ =>
    s!"Expression too deeply nested (max depth: {Reader.nestingLimit})"
  | unterminatedString _ => "Unterminated string literal, read to end of input"

/-- The token that should not be there. -/
def found : ReadError → Option Token
  | faulty .unexpectedClose _ => some .closing
  | _ => none

end ReadError

namespace Token.Stream

/-- The stream once all but some last tokens have been taken. -/
def leaving (s : Stream) (rest : List Token) : Stream := s.seek (s.length - rest.length)

/-- The next form of a stream, and the stream after what was taken of it.  At the end of the
stream there is the empty list. -/
def readStrictly (s : Stream) : Except ReadError Datum × Stream :=
  match Reader.form Reader.nestingLimit s.remaining with
  | .done datum rest _ => (.ok datum, s.leaving rest)
  | .failed fault rest _ =>
    let after := s.leaving rest
    let place := if fault = .unexpectedClose then after.position - 1 else after.position
    (.error (.faulty fault place), after)

end Token.Stream

/-- A form read from a stream: a datum or what is wrong with it, an unterminated string literal
among its tokens, and the stream after it. -/
structure Form where
  outcome : Except ReadError Datum
  unterminated : Option ReadError
  after : Token.Stream

namespace Form

/-- The datum of a form.  A faulty one counts as the empty list. -/
def datum (form : Form) : Datum :=
  match form.outcome with
  | .ok datum => datum
  | .error _ => .nil

/-- What there is to report about the text of a form, in order. -/
def errors (form : Form) : List ReadError :=
  form.unterminated.toList ++
    match form.outcome with
    | .ok _ => []
    | .error error => [error]

end Form

namespace Token.Stream

/-- The unterminated string literal, if it is among the tokens taken between two places of a
stream. -/
def unterminatedBetween (s : Stream) (start stop : Nat) : Option ReadError :=
  match s.unterminated with
  | some place =>
    if start ≤ place ∧ place < stop then some (.unterminatedString place) else none
  | none => none

/-- Where reading goes on after a read: at the end if the form was nested too deeply. -/
def recover (s : Stream) (outcome : Except ReadError Datum) : Stream :=
  match outcome with
  | .error (.faulty .tooDeeplyNested _) => s.seek s.length
  | _ => s

/-- The next form of a stream. -/
def read (s : Stream) : Form :=
  let (outcome, stopped) := s.readStrictly
  let after := stopped.recover outcome
  { outcome, after, unterminated := s.unterminatedBetween s.position after.position }

/-! ## Progress -/

theorem length_remaining (s : Stream) : s.remaining.length = s.length - s.position := by
  simp [remaining, length]

theorem length_leaving (s : Stream) (rest : List Token) : (s.leaving rest).length = s.length := rfl

theorem position_leaving (s : Stream) (rest : List Token) :
    (s.leaving rest).position = s.length - rest.length := by
  simp [leaving, seek]

theorem position_lt_position_leaving (s : Stream) {rest : List Token}
    (h : s.isExhausted = false) (fits : rest.length ≤ s.remaining.length - 1) :
    s.position < (s.leaving rest).position := by
  rw [position_leaving]
  rw [length_remaining] at fits
  simp only [isExhausted, decide_eq_false_iff_not, Nat.not_le] at h
  omega

/-- A form takes at least one token of what is left. -/
theorem length_remaining_read_lt (s : Stream) (h : s.isExhausted = false) :
    s.read.after.remaining.length < s.remaining.length := by
  have left : s.position < s.length := by
    simpa only [isExhausted, decide_eq_false_iff_not, Nat.not_le] using h
  suffices key : s.read.after.length = s.length ∧ s.position < s.read.after.position by
    rw [length_remaining, length_remaining, key.1]; omega
  unfold read readStrictly
  cases Reader.form Reader.nestingLimit s.remaining with
  | done datum rest fits => exact ⟨rfl, position_lt_position_leaving s h fits⟩
  | failed fault rest fits =>
    cases fault with
    | tooDeeplyNested =>
      refine ⟨rfl, ?_⟩
      simpa [recover, seek, length_leaving] using left
    | unclosedList => exact ⟨rfl, position_lt_position_leaving s h (by simpa using fits)⟩
    | unexpectedClose => exact ⟨rfl, position_lt_position_leaving s h (by simpa using fits)⟩

/-- The forms of a stream from where it stands to its end. -/
def readAll (s : Stream) : List Form :=
  match _ : s.isExhausted with
  | true => []
  | false => s.read :: s.read.after.readAll
termination_by s.remaining.length
decreasing_by exact length_remaining_read_lt s (by assumption)

end Token.Stream

/-- The first form of a text without comments. -/
def Datum.ofText (text : String) : Datum := (Token.Stream.ofText false text).read.datum

end DynLisp
