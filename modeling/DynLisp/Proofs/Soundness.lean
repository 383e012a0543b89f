/-
  Proofs/Soundness.lean --- evaluation keeps a memory valid.

  WHAT THIS FILE IS FOR.  A program can hold what it can see, in a memory that is
  valid: that is a regime (`visibility`).  So evaluation keeps a memory valid and
  gives what can be seen, and so does the unwinding after the depth limit is hit.
-/
import DynLisp.Proofs.Regime

set_option autoImplicit false

namespace DynLisp

open Memory

/-- The regime of all that can be seen.  True is a symbol, and every symbol can be. -/
def visibility (label : Label) : Regime (.symbol label) where
  Orderly := Valid
  Holds := Visible
  valid h := h
  visible _ hv := hv
  holds_nil _ := trivial
  holds_number _ _ := trivial
  holds_truth _ := trivial
  holds_first h hv := h.first_visible hv
  holds_rest h hv := h.rest_visible hv
  holds_lookup h hlookup := h.lookup_visible hlookup
  kept hm hv := hm.visible hv
  entered h hparameters harguments := by
    have hlist := h.list harguments
    exact hlist.valid.push (hlist.evolves.visible hparameters) hlist.visible
  popped h := h.pop
  defined h hkey hv := (h.defined hkey hv).valid

theorem Regime.Yields.seen {label : Label} {m m' : Memory} {v : Value}
    (h : (visibility label).Yields m m' v) : m.Yields m' v := ⟨h.orderly, h.evolves, h.holds⟩

/-! ## Waiting forms -/

/-- What a form keeps while it waits can be seen. -/
def Pending.Visible (m : Memory) (pending : Pending) : Prop := pending.All m.Visible

theorem Pending.Visible.evolves {m m' : Memory} {pending : Pending} (h : pending.Visible m)
    (hm : m.Evolves m') : pending.Visible m' := h.mono fun _ hv => hm.visible hv

theorem Session.boolean_visible {s : Session} {label : Label} (hs : s.truth = .symbol label)
    (b : Bool) (m : Memory) : m.Visible (s.boolean b) :=
  Regime.holds_boolean (R := visibility label) hs b m

/-! ## Evaluation -/

section Evaluation

variable {label : Label}

/-- The stopping evaluator keeps a memory valid, whether it stops or not. -/
theorem evaluateOrStop_sound (room : Nat) (expression : Value) (s : Session)
    (htruth : s.truth = .symbol label) (h : s.memory.Valid)
    (hx : s.memory.Visible expression) :
    (evaluateOrStop room expression s).Meets (visibility label) s.memory :=
  evaluateOrStop_meets room expression s htruth h hx

/-- To settle a waiting form keeps a memory valid. -/
theorem Pending.settle_yields {s : Session} (htruth : s.truth = .symbol label)
    (h : s.memory.Valid) {pending : Pending} (hpending : pending.Visible s.memory) {v : Value}
    (hv : s.memory.Visible v) :
    s.memory.Yields ((pending.settle v).run s).2.memory ((pending.settle v).run s).1 :=
  (Regime.yields_settle (R := visibility label) htruth h hpending hv).seen

theorem unwindFrom_yields {waiting : List Pending} {s : Session}
    (htruth : s.truth = .symbol label) (h : s.memory.Valid)
    (hwaiting : ∀ pending ∈ waiting, pending.Visible s.memory) {v : Value}
    (hv : s.memory.Visible v) :
    s.memory.Yields ((unwindFrom v waiting).run s).2.memory ((unwindFrom v waiting).run s).1 :=
  (Regime.unwindFrom_yields (R := visibility label) htruth h hwaiting hv).seen

end Evaluation

end DynLisp
