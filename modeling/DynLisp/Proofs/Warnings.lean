/-
  Proofs/Warnings.lean --- a reader of its own, and a session that reads.

  WHAT THIS FILE IS FOR.  There are two ways to read a form and to hear what is wrong
  with its text.  `Parsing.parse` is a reader without a session: it moves a stream on,
  warns, and gives the empty list for a form that could not be read.  A session reads
  and evaluates at once, and evaluates no form that could not be read.

  THE TWO AGREE.  `evaluateNext_eq_parse`: the session goes where the reader goes,
  reports what the reader warns about, and then evaluates what the reader gives.  A form
  that could not be read makes no difference, since to evaluate the empty list in its
  place comes to the same where there is room to evaluate anything.
-/
import DynLisp.Proofs.Coverage

set_option autoImplicit false

namespace DynLisp

open Evaluation

/-! ## Reading with warnings -/

/-- A stream that is being read, and what has been warned about so far, in order. -/
structure Parse where
  stream : Token.Stream
  warned : List ReadError := []

/-- A computation that reads. -/
abbrev Parsing := StateM Parse

namespace Parsing

/-- Warn about an error. -/
def warn (error : ReadError) : Parsing Unit :=
  modify fun p => { p with warned := p.warned ++ [error] }

/-- Take a form off the stream, or what could not be made a form of. -/
def take : Parsing (Except ReadError Datum) :=
  modifyGet fun p => (p.stream.readStrictly.1, { p with stream := p.stream.readStrictly.2 })

/-- Move to where reading can go on. -/
def recover (outcome : Except ReadError Datum) : Parsing Unit :=
  modify fun p => { p with stream := p.stream.recover outcome }

/-- Warn about the open string literal, if it is among the tokens taken since the stream stood at a
place. -/
def warnSince (start : Nat) : Parsing Unit := do
  let stream := (← get).stream
  match stream.unterminatedBetween start stream.position with
  | some error => warn error
  | none => return

/-- The datum that has been read.  After an error it is the empty list, and there is a warning. -/
def datumOf : Except ReadError Datum → Parsing Datum
  | .ok datum => return datum
  | .error error => do
    warn error
    return .nil

/-- The next form of the stream. -/
def parse : Parsing Datum := do
  let start := (← get).stream.position
  let outcome ← take
  recover outcome
  warnSince start
  datumOf outcome

theorem run_warnSince (start : Nat) (p : Parse) :
    (warnSince start).run p = ((), { p with
      warned := p.warned ++ (p.stream.unterminatedBetween start p.stream.position).toList }) := by
  unfold warnSince
  simp only [run_bind, run_get]
  cases p.stream.unterminatedBetween start p.stream.position with
  | some error => rfl
  | none => exact congrArg (fun warned => ((), Parse.mk p.stream warned)) (List.append_nil _).symm

/-- What the steps of the reader come to is one read. -/
theorem run_parse (p : Parse) :
    parse.run p = (p.stream.read.datum,
      ⟨p.stream.read.after, p.warned ++ p.stream.read.errors⟩) := by
  obtain ⟨stream, warned⟩ := p
  have hopen : stream.read.unterminated =
      stream.read.after.unterminatedBetween stream.position stream.read.after.position := by
    have hsame := stream.unterminated_read
    unfold Token.Stream.unterminatedBetween
    rw [hsame]
    rfl
  have hrun : parse.run ⟨stream, warned⟩ = (datumOf stream.read.outcome).run
      ⟨stream.read.after, warned ++ stream.read.unterminated.toList⟩ := by
    rw [hopen]
    exact congrArg (fun stopped => (datumOf stream.read.outcome).run stopped.2)
      (run_warnSince stream.position ⟨stream.read.after, warned⟩)
  rw [hrun]
  unfold Form.datum Form.errors
  cases stream.read.outcome with
  | ok datum =>
    rw [List.append_nil]
    rfl
  | error error =>
    rw [← List.append_assoc]
    rfl

end Parsing

/-! ## Reading in a session -/

/-- To evaluate the empty list does nothing, if there is room for it. -/
theorem Session.Valid.run_evaluate_nil {s : Session} (h : s.Valid)
    (hdepth : 1 ≤ s.settings.maxDepth) : (evaluate .nil).run s = (.nil, s) := by
  obtain ⟨room, hroom⟩ := Nat.exists_eq_add_of_le' hdepth
  rw [run_evaluate, hroom, h.rested_eq, run_evaluateWithin_succ h.resting]
  exact congrArg (Value.nil, ·) h.rested_eq

/-- A form that has been read is evaluated as the datum that it counts as. -/
theorem Session.Valid.run_evaluateForm {s : Session} (h : s.Valid)
    (hdepth : 1 ≤ s.settings.maxDepth) (form : Form) :
    let warned : Session := { s with reported := s.reported ++ form.errors.map .unreadable }
    (evaluateForm form).run s =
      (inMemory (Memory.making (Store.load form.datum)) >>= evaluate).run warned := by
  intro warned
  have hwarned : warned.Valid := ⟨h.memory, h.truth, h.resting⟩
  unfold evaluateForm Form.datum
  rw [run_bind, h.run_reports]
  cases form.outcome with
  | ok datum => rfl
  | error error => exact (hwarned.run_evaluate_nil hdepth).symm

/-- A session that reads the next form of a stream goes where the reader goes, reports first what
the reader warns about, and then does what it takes to evaluate what the reader gives, which is about
no text any more. -/
theorem evaluateNext_eq_parse {s : Session} (h : s.Reachable) (hdepth : 1 ≤ s.settings.maxDepth)
    {stream : Token.Stream} (hmore : stream.isExhausted = false) :
    let parsed := Parsing.parse.run ⟨stream, []⟩
    let warned : Session :=
      { s with reported := s.reported ++ parsed.2.warned.map .unreadable }
    let loaded := (inMemory (Memory.making (Store.load parsed.1))).run warned
    let evaluated := (evaluate loaded.1).run loaded.2
    (evaluateNext stream).run s = ((some evaluated.1, parsed.2.stream), evaluated.2) ∧
      ∃ more, evaluated.2.reported = warned.reported ++ more ∧
        ∀ condition ∈ more, condition.isUnreadable = false := by
  intro parsed warned loaded evaluated
  have hparsed : parsed = (stream.read.datum, ⟨stream.read.after, stream.read.errors⟩) :=
    Parsing.run_parse ⟨stream, []⟩
  have hform : (evaluateForm stream.read).run s = evaluated := by
    rw [h.valid.run_evaluateForm hdepth]
    simp only [evaluated, loaded, warned, hparsed]
    rfl
  refine ⟨?_, Session.Remarks.evaluate loaded.1 loaded.2⟩
  have hnext : (evaluateNext stream).run s =
      ((some ((evaluateForm stream.read).run s).1, stream.read.after),
        ((evaluateForm stream.read).run s).2) := by
    simp only [evaluateNext, hmore]
    rfl
  rw [hnext, hform, hparsed]

/-- A parenthesis too many comes first, then a list that holds an open string literal and is not
closed itself. -/
theorem evaluateNext_eq_parse_open :
    let s := Session.start { maxDepth := 1 }
    let stream := (Token.Stream.ofText false ") (a \"b").seek 1
    let parsed := Parsing.parse.run ⟨stream, []⟩
    s.Reachable ∧ 1 ≤ s.settings.maxDepth ∧ stream.isExhausted = false ∧
      parsed.1 = .nil ∧ parsed.2.stream.position = 4 ∧
      parsed.2.warned = [.unterminatedString 3, .faulty .unclosedList 4] ∧
      ((evaluateNext stream).run s).1.2 = parsed.2.stream ∧
      ((evaluateNext stream).run s).2.reported = parsed.2.warned.map .unreadable := by
  intro s stream parsed
  have hmore : stream.isExhausted = false := by decide +kernel
  have hdepth : 1 ≤ s.settings.maxDepth := Nat.le_refl 1
  obtain ⟨hrun, -⟩ := evaluateNext_eq_parse (.start { maxDepth := 1 }) hdepth hmore
  exact ⟨.start _, hdepth, hmore, by decide +kernel, by decide +kernel, by decide +kernel,
    congrArg (fun ended => ended.1.2) hrun, by decide +kernel⟩

end DynLisp
