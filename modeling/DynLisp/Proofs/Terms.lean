/-
  Proofs/Terms.lean --- sums, differences and products of integers, nested at will.

  WHAT THIS FILE IS FOR.  A `Term` is an expression made of integers, of symbols, and of
  calls of `+`, `-` and `*` with two arguments each.  Its exact value is an integer that
  need not fit in 64 bits.  What the evaluator gives for it is that value modulo `2 ^ 64`,
  however often something has overflowed on the way (`evaluate_term`).

  WHY NOTHING ELSE MATTERS.  The head of such a call is a built-in name, and those are
  found before any binding is looked up.  The other symbols are looked up and nothing is
  bound, so that a term leaves the session as it was.
-/
import DynLisp.Proofs.Heights

set_option autoImplicit false

namespace DynLisp

open Evaluation

/-! ## Terms -/

/-- The operations on integers that wrap around. -/
inductive RingOperation where
  | add
  | subtract
  | multiply
  deriving DecidableEq, Repr

namespace RingOperation

/-- The built-in name of the operation. -/
def name : RingOperation → String
  | add => "+"
  | subtract => "-"
  | multiply => "*"

/-- The operation among all those that give a number. -/
def arithmetic : RingOperation → Arithmetic
  | add => .add
  | subtract => .subtract
  | multiply => .multiply

/-- The operation on integers of any size. -/
def exact : RingOperation → Int → Int → Int
  | add, x, y => x + y
  | subtract, x, y => x - y
  | multiply, x, y => x * y

theorem find?_name (operation : RingOperation) :
    Operator.find? operation.name = some (.arithmetic operation.arithmetic) := by
  cases operation <;> rfl

/-- On integers of 64 bits the operation is the exact one, wrapped around. -/
theorem onValues_ofInt (operation : RingOperation) (x y : Int) :
    operation.arithmetic.onValues (.number (.integer (Int64.ofInt x)))
        (.number (.integer (Int64.ofInt y))) =
      .ok (.integer (Int64.ofInt (operation.exact x y))) := by
  cases operation with
  | add => rw [exact, Int64.ofInt_add]; rfl
  | subtract => rw [exact, Int64.ofInt_sub]; rfl
  | multiply => rw [exact, Int64.ofInt_mul]; rfl

end RingOperation

/-- An expression made of integers, symbols, and calls of `+`, `-` and `*` with two arguments. -/
inductive Term where
  | literal (n : Int64)
  | symbol (name : String)
  | call (operation : RingOperation) (left right : Term)
  deriving DecidableEq

namespace Term

/-- The expression as a datum. -/
def datum : Term → Datum
  | literal n => .number (.integer n)
  | symbol name => .symbol name
  | call operation left right => .ofList [.symbol operation.name, left.datum, right.datum]

/-- The symbols that stand for a value. -/
def symbols : Term → List String
  | literal _ => []
  | symbol name => [name]
  | call _ left right => left.symbols ++ right.symbols

/-- The value of the expression in integers of any size, if its symbols have some values. -/
def exact (value : String → Int64) : Term → Int
  | literal n => n.toInt
  | symbol name => (value name).toInt
  | call operation left right => operation.exact (left.exact value) (right.exact value)

theorem height_datum_call (operation : RingOperation) (left right : Term) :
    (call operation left right).datum.height = max left.datum.height right.datum.height + 1 := by
  simp only [datum, Datum.ofList, Datum.height]
  omega

end Term

/-! ## Looking up a symbol -/

/-- Symbols of one name are bound to the same. -/
theorem Memory.lookup_symbol (m : Memory) (label : Label) :
    m.lookup (.symbol label) = m.lookupName label.text := by
  have hequal : (Value.symbol label).equalAtoms (.symbol ⟨0, label.text⟩) = true := by
    simp [Value.equalAtoms]
  have hslot : ∀ v : Value,
      v.equalAtoms (.symbol label) = v.equalAtoms (.symbol ⟨0, label.text⟩) := by
    intro v
    rw [Value.equalAtoms_comm, Value.equalAtoms_congr hequal, Value.equalAtoms_comm]
  simp only [lookupName, lookup, Environment.lookup, Frame.lookup, Frame.slot?, hslot]

/-! ## What a value is, by what it shows -/

namespace Store.Shows

variable {s : Store} {v : Value}

theorem symbol_inv {name : String} (h : s.Shows v (.symbol name)) :
    ∃ serial, v = .symbol ⟨serial, name⟩ := by
  generalize hdatum : Datum.symbol name = datum at h
  cases h with
  | symbol label =>
    obtain rfl : name = label.text := Datum.symbol.inj hdatum
    exact ⟨label.serial, rfl⟩
  | nil | number | string | pair => exact Datum.noConfusion hdatum

theorem cons_inv {first rest : Datum} (h : s.Shows v (.cons first rest)) :
    (∃ a, v = .pair a) ∧ s.Shows (s.first v) first ∧ s.Shows (s.rest v) rest := by
  cases h with
  | @pair a _ _ _ hfirst hrest => exact ⟨⟨a, rfl⟩, hfirst, hrest⟩

end Store.Shows

/-- What a session loads shows what it was made of. -/
theorem Session.Valid.shows_load {s : Session} (h : s.Valid) (datum : Datum) :
    (s.after (.load datum)).memory.store.Shows ((Request.load datum).answer.run s).1 datum :=
  h.memory.shows_load datum

/-! ## Evaluation -/

/-- A call of an operation on two parts that come to integers and change nothing. -/
theorem run_follow_of_call {s : Session} {x : Value} {operation : RingOperation}
    {left right : Term} (hshows : s.memory.store.Shows x (Term.call operation left right).datum)
    (evaluate : Value → Evaluation Value) {i j : Int}
    (hleft : ∀ v, s.memory.store.Shows v left.datum →
      (evaluate v).run s = (.number (.integer (Int64.ofInt i)), s))
    (hright : ∀ v, s.memory.store.Shows v right.datum →
      (evaluate v).run s = (.number (.integer (Int64.ofInt j)), s)) :
    ((Plan.of s.memory x).follow evaluate).run s =
      (.number (.integer (Int64.ofInt (operation.exact i j))), s) := by
  obtain ⟨⟨a, rfl⟩, hhead, hrest⟩ := hshows.cons_inv
  obtain ⟨-, hfirst, hmore⟩ := hrest.cons_inv
  obtain ⟨-, hsecond, -⟩ := hmore.cons_inv
  obtain ⟨serial, hname⟩ := hhead.symbol_inv
  have hplan : Plan.of s.memory (.pair a) =
      Plan.ofOperator s.memory operation.name (.arithmetic operation.arithmetic) (.pair a)
        (s.memory.store.rest (.pair a)) := by
    simp only [Plan.of, Plan.ofCall, hname, operation.find?_name]
  rw [hplan, Plan.ofOperator, Plan.operands, run_follow_part, hleft _ hfirst, run_follow_part]
  have hoperand : (evaluate (s.memory.store.second (s.memory.store.rest (.pair a)))).run s =
      (.number (.integer (Int64.ofInt j)), s) := hright _ hsecond
  simp only [hoperand, operation.onValues_ofInt]
  rfl

/-- A term comes to its exact value, wrapped around, and the session stays as it was. -/
theorem run_evaluateWithin_term {s : Session} (hs : s.abandoned = false) (value : String → Int64)
    (term : Term) (hbound : ∀ name ∈ term.symbols,
      s.memory.lookupName name = some (.number (.integer (value name))))
    {room : Nat} (hheight : term.datum.height < room) {x : Value}
    (hshows : s.memory.store.Shows x term.datum) :
    (evaluateWithin room x).run s =
      (.number (.integer (Int64.ofInt (term.exact value))), s) := by
  induction term generalizing room x with
  | literal n =>
    obtain ⟨room, rfl⟩ := Nat.exists_eq_succ_of_ne_zero (Nat.ne_zero_of_lt hheight)
    rw [run_evaluateWithin_succ hs]
    cases hshows
    simp only [Term.exact, Int64.ofInt_toInt]
    rfl
  | symbol name =>
    obtain ⟨room, rfl⟩ := Nat.exists_eq_succ_of_ne_zero (Nat.ne_zero_of_lt hheight)
    obtain ⟨serial, rfl⟩ := hshows.symbol_inv
    have hlookup := hbound name (List.mem_singleton.mpr rfl)
    rw [run_evaluateWithin_succ hs, Plan.of, Memory.lookup_symbol, hlookup, Term.exact,
      Int64.ofInt_toInt]
    rfl
  | call operation left right ihleft ihright =>
    obtain ⟨room, rfl⟩ := Nat.exists_eq_succ_of_ne_zero (Nat.ne_zero_of_lt hheight)
    rw [Term.height_datum_call] at hheight
    have hleft : ∀ name ∈ left.symbols, s.memory.lookupName name = _ :=
      fun name hname => hbound name (List.mem_append_left _ hname)
    have hright : ∀ name ∈ right.symbols, s.memory.lookupName name = _ :=
      fun name hname => hbound name (List.mem_append_right _ hname)
    rw [run_evaluateWithin_succ hs]
    exact run_follow_of_call hshows _ (fun v => ihleft hleft (by omega))
      (fun v => ihright hright (by omega))

/-- In any session, a value that shows a term whose symbols are bound to integers, and whose height
is below the depth limit, evaluates to the one integer of 64 bits that is its exact value modulo
`2 ^ 64`.  Nothing is reported, and nothing of the memory changes.  What `+`, `-` and `*` are bound
to does not matter. -/
theorem evaluate_term {s : Session} {x : Value} {term : Term} {value : String → Int64}
    (hshows : s.memory.store.Shows x term.datum)
    (hbound : ∀ name ∈ term.symbols,
      s.memory.lookupName name = some (.number (.integer (value name))))
    (hheight : term.datum.height < s.settings.maxDepth) :
    ∃ n : Int64, (evaluate x).run s = (.number (.integer n), s.rested) ∧
      -2 ^ 63 ≤ n.toInt ∧ n.toInt < 2 ^ 63 ∧ n.toInt ≡ term.exact value [ZMOD 2 ^ 64] := by
  have hrun := run_evaluateWithin_term (s := s.rested) rfl value term hbound hheight hshows
  refine ⟨Int64.ofInt (term.exact value), ?_, Int64.le_toInt _, Int64.toInt_lt _, ?_⟩
  · rw [run_evaluate, hrun]
    rfl
  · rw [Int64.toInt_ofInt]
    exact Int.bmod_emod

/-- With `+` bound to the largest integer, the expression `(+ (* + +) (- 3 (+ + +)))` is six: the
product, the inner sum and the outer sum all overflow. -/
theorem evaluate_term_plus_bound :
    let sum : Term := .call .add (.symbol "+") (.symbol "+")
    let term : Term :=
      .call .add (.call .multiply (.symbol "+") (.symbol "+")) (.call .subtract (.literal 3) sum)
    let binding : Request := .define (.symbol ⟨1, "+"⟩) (.number (.integer Int64.maxValue))
    let largest := (Session.start { maxDepth := 4 }).after binding
    let s := largest.after (.load term.datum)
    let x := ((Request.load term.datum).answer.run largest).1
    (s.memory.store.Shows x term.datum ∧
      (∀ name ∈ term.symbols,
        s.memory.lookupName name = some (.number (.integer Int64.maxValue))) ∧
      term.datum.height < s.settings.maxDepth) ∧
      (evaluate x).run s = (.number (.integer 6), s.rested) := by
  intro sum term binding largest s x
  have hallowed : binding.Allowed (Session.start { maxDepth := 4 }).memory := ⟨trivial, trivial⟩
  have hlargest : largest.Valid := ((Session.valid_start _).after hallowed).valid
  have hshows : s.memory.store.Shows x term.datum := by
    -- what `s` and `x` are is written out, so that neither is computed
    have hs : s = largest.after (.load term.datum) := rfl
    have hx : x = ((Request.load term.datum).answer.run largest).1 := rfl
    rw [hs, hx]
    exact hlargest.shows_load term.datum
  have hbound : ∀ name ∈ term.symbols,
      s.memory.lookupName name = some (.number (.integer Int64.maxValue)) := by decide +kernel
  have hheight : term.datum.height < s.settings.maxDepth := by decide +kernel
  have hsix : term.exact (fun _ => Int64.maxValue) ≡ 6 [ZMOD 2 ^ 64] := by decide
  obtain ⟨n, hrun, hle, hlt, hn⟩ := evaluate_term hshows hbound hheight
  have hn : n.toInt ≡ 6 [ZMOD 2 ^ 64] := hn.trans hsix
  obtain rfl : n = 6 := Int64.toInt_inj.mp (by
    have hmod : n.toInt % 2 ^ 64 = 6 := hn
    show n.toInt = 6
    omega)
  exact ⟨⟨hshows, hbound, hheight⟩, hrun⟩

end DynLisp
