/-
  Proofs/Regime.lean --- what evaluation keeps, for any notion of what may be held.

  WHAT THIS FILE IS FOR.  Evaluation handles values and does not make them up: it
  takes them out of cells and bindings, binds them, and hands them on.  So if the
  values that a program may hold are closed under the few things that a plan does
  with a value, evaluation stays among them, whatever the program is.  A `Regime`
  is such a notion, together with what a memory has to be like for it.

  THE STEP AND THE RUN.  The plan of an expression that may be held `Obeys` the
  regime (`obeys_of`), and to follow such a plan keeps to the regime as long as
  the evaluation of its parts does (`attempt_meets`).  By induction on the room
  that is left, evaluation keeps to it (`evaluateOrStop_meets`), and so does the
  unwinding after the depth limit is hit (`unwindFrom_yields`).
-/
import DynLisp.Proofs.Preservation
import DynLisp.Proofs.Stopping

set_option autoImplicit false

namespace DynLisp

open Evaluation Memory

/-! ## Regimes -/

/-- What a program may hold in a memory where true is a certain value, and how the memory has to be
for that. -/
structure Regime (truth : Value) where
  Orderly : Memory → Prop
  Holds : Memory → Value → Prop
  valid {m : Memory} : Orderly m → m.Valid
  visible {m : Memory} {v : Value} : Orderly m → Holds m v → m.Visible v
  holds_nil (m : Memory) : Holds m .nil
  holds_number (m : Memory) (n : Number) : Holds m (.number n)
  holds_truth (m : Memory) : Holds m truth
  holds_first {m : Memory} {v : Value} : Orderly m → Holds m v → Holds m (m.store.first v)
  holds_rest {m : Memory} {v : Value} : Orderly m → Holds m v → Holds m (m.store.rest v)
  holds_lookup {m : Memory} {key v : Value} : Orderly m → m.lookup key = some v → Holds m v
  /-- what may be held is held on to -/
  kept {m m' : Memory} {v : Value} : m.Spares m' → Holds m v → Holds m' v
  entered {m : Memory} {parameters : Value} {arguments : List Value} : Orderly m →
    Holds m parameters → (∀ v ∈ arguments, Holds m v) → Orderly (m.entered parameters arguments)
  popped {m : Memory} : Orderly m → Orderly m.pop
  defined {m : Memory} {key v : Value} : Orderly m → Holds m key → Holds m v →
    Orderly (m.defined key v)

namespace Memory

variable {m : Memory}

theorem spares_pop (m : Memory) : m.Spares m.pop :=
  ⟨Nat.le_refl _, fun _ _ => Iff.rfl, fun _ _ => Iff.rfl, fun _ _ _ => rfl, fun _ _ => rfl⟩

theorem spares_push (m : Memory) (parameters arguments : Value) :
    m.Spares (m.push parameters arguments) :=
  ⟨Nat.le_refl _, fun _ _ => Iff.rfl, fun _ _ => Iff.rfl, fun _ _ _ => rfl, fun _ _ => rfl⟩

theorem Valid.spares_entered (h : m.Valid) (parameters : Value) (arguments : List Value) :
    m.Spares (m.entered parameters arguments) :=
  ((m.grows_list arguments).evolves h).toSpares.trans (spares_push _ _ _)

/-- What comes of a memory inside a new call, seen from outside of it. -/
theorem Valid.evolves_left (h : m.Valid) {parameters : Value} {arguments : List Value}
    {m' : Memory} (hm : (m.entered parameters arguments).Evolves m') : m.Evolves m'.pop :=
  ((m.grows_list arguments).evolves h).trans hm.pop

end Memory

namespace Regime

variable {truth : Value} (R : Regime truth)

/-- A memory that has become another one, and has given a value that may be held there. -/
structure Yields (m m' : Memory) (v : Value) : Prop where
  orderly : R.Orderly m'
  evolves : m.Evolves m'
  holds : R.Holds m' v

variable {R} {m m' m'' : Memory} {v : Value}

theorem Yields.here (h : R.Orderly m) (hv : R.Holds m v) : R.Yields m m v := ⟨h, .refl m, hv⟩

theorem Yields.after (h' : R.Yields m' m'' v) (h : m.Evolves m') : R.Yields m m'' v :=
  ⟨h'.orderly, h.trans h'.evolves, h'.holds⟩

theorem Yields.kept (h : R.Yields m m' v) {w : Value} (hw : R.Holds m w) : R.Holds m' w :=
  R.kept h.evolves.toSpares hw

theorem holds_second (h : R.Orderly m) (hv : R.Holds m v) : R.Holds m (m.store.second v) :=
  R.holds_first h (R.holds_rest h hv)

theorem holds_third (h : R.Orderly m) (hv : R.Holds m v) : R.Holds m (m.store.third v) :=
  R.holds_first h (R.holds_rest h (R.holds_rest h hv))

theorem holds_elements (h : R.Orderly m) (hv : R.Holds m v) :
    ∀ item ∈ m.store.elements v, R.Holds m item := by
  intro item hitem
  obtain ⟨a, ha, rfl⟩ := List.mem_map.mp hitem
  have hlinks := ((R.valid h).chain (R.visible h hv)).forall_links
    (fun b hb => R.holds_rest h hb) hv
  exact R.holds_first h (hlinks a ha)

theorem holds_boolean {s : Session} (hs : s.truth = truth) (b : Bool) (m : Memory) :
    R.Holds m (s.boolean b) := by
  cases b with
  | false => exact R.holds_nil m
  | true =>
    rw [Session.boolean, if_pos rfl, hs]
    exact R.holds_truth m

theorem yields_defined (h : R.Orderly m) {key : Value} (hkey : R.Holds m key)
    (hv : R.Holds m v) : R.Yields m (m.defined key v) v := by
  have hevolves := ((R.valid h).defined (R.visible h hkey) (R.visible h hv)).evolves
  exact ⟨R.defined h hkey hv, hevolves, R.kept hevolves.toSpares hv⟩

/-- To list values and bind nothing to the list is to make a call and leave it at once. -/
theorem yields_listed (h : R.Orderly m) {items : List Value} (hitems : ∀ w ∈ items, R.Holds m w) :
    R.Yields m { m with store := ((Store.list items).run m.store).2 } .nil :=
  ⟨R.popped (R.entered h (R.holds_nil m) hitems), (m.grows_list items).evolves (R.valid h),
    R.holds_nil _⟩

end Regime

/-! ## Plans -/

/-- Something holds of all values that a form keeps while it waits and may go on to use. -/
def Pending.All (P : Value → Prop) : Pending → Prop
  | binding arguments => P arguments
  | listing before _ => ∀ v ∈ before, P v
  | passing | dropping | inverting | comparing _ => True

theorem Pending.All.mono {P Q : Value → Prop} {pending : Pending} (h : pending.All P)
    (hPQ : ∀ v, P v → Q v) : pending.All Q := by
  cases pending with
  | binding arguments => exact hPQ _ h
  | listing before missing => exact fun v hv => hPQ v (h v hv)
  | passing | dropping | inverting | comparing => trivial

namespace Plan

variable {truth : Value}

/-- All that a plan names may be held, whatever its parts come to. -/
def Obeys (R : Regime truth) : Plan → Memory → Prop
  | .value v, m => R.Holds m v
  | .truth _, _ => True
  | .fault _ _, _ => True
  | .bind key v, m => R.Holds m key ∧ R.Holds m v
  | .enter parameters arguments body, m =>
    R.Holds m parameters ∧ (∀ v ∈ arguments, R.Holds m v) ∧ R.Holds m body
  | .part pending expression next, m =>
    pending.All (R.Holds m) ∧ R.Holds m expression ∧
      ∀ m' v, R.Yields m m' v → (next v m').Obeys R m'

variable {R : Regime truth} {m : Memory}

theorem obeys_last {expression : Value} (hx : R.Holds m expression) :
    (last expression).Obeys R m := ⟨trivial, hx, fun _ _ hm => hm.holds⟩

theorem obeys_operands {first : Pending} {second : Value → Pending} {arguments : Value}
    {finish : Value → Value → Plan} (h : R.Orderly m) (harguments : R.Holds m arguments)
    (hfirst : first.All (R.Holds m)) (hsecond : ∀ a m', (second a).All (R.Holds m'))
    (hfinish : ∀ a b m', (finish a b).Obeys R m') :
    (operands first second m arguments finish).Obeys R m := by
  refine ⟨hfirst, R.holds_first h harguments, ?_⟩
  intro m' a hm
  have hsecond' := Regime.holds_second hm.orderly (hm.kept harguments)
  exact ⟨hsecond a m', hsecond', fun m'' b _ => hfinish a b m''⟩

theorem obeys_ofClauses {clauses : List Value} (h : R.Orderly m)
    (hclauses : ∀ clause ∈ clauses, R.Holds m clause) : (ofClauses clauses m).Obeys R m := by
  induction clauses generalizing m with
  | nil => exact R.holds_nil m
  | cons clause more ih =>
    obtain ⟨hclause, hmore⟩ := List.forall_mem_cons.mp hclauses
    refine ⟨trivial, R.holds_first h hclause, ?_⟩
    intro m' v hm
    dsimp only
    split
    · exact obeys_last (Regime.holds_second hm.orderly (hm.kept hclause))
    · exact ih hm.orderly fun c hc => hm.kept (hmore c hc)

theorem obeys_ofArguments {parameters body : Value} {before arguments : List Value}
    (hparameters : R.Holds m parameters) (hbody : R.Holds m body)
    (hbefore : ∀ v ∈ before, R.Holds m v) (harguments : ∀ v ∈ arguments, R.Holds m v) :
    (ofArguments parameters body before arguments).Obeys R m := by
  induction arguments generalizing before m with
  | nil => exact ⟨hparameters, hbefore, hbody⟩
  | cons argument more ih =>
    obtain ⟨hargument, hmore⟩ := List.forall_mem_cons.mp harguments
    refine ⟨hbefore, hargument, ?_⟩
    intro m' v hm
    refine ih (hm.kept hparameters) (hm.kept hbody) ?_ fun w hw => hm.kept (hmore w hw)
    intro w hw
    rcases List.mem_append.mp hw with hw | hw
    · exact hm.kept (hbefore w hw)
    · rw [List.mem_singleton.mp hw]
      exact hm.holds

theorem obeys_ofSpecial {whole arguments : Value} (h : R.Orderly m) (form : SpecialForm)
    (hwhole : R.Holds m whole) (harguments : R.Holds m arguments) :
    (ofSpecial m form whole arguments).Obeys R m := by
  have hfirst := R.holds_first h harguments
  cases form with
  | quote => exact hfirst
  | lambda => exact hwhole
  | define =>
    refine ⟨harguments, Regime.holds_second h harguments, fun m' v hm => ⟨?_, hm.holds⟩⟩
    exact R.holds_first hm.orderly (hm.kept harguments)
  | not => exact ⟨trivial, hfirst, fun _ _ _ => trivial⟩
  | cond => exact obeys_ofClauses h (Regime.holds_elements h harguments)
  | and =>
    refine ⟨trivial, hfirst, ?_⟩
    intro m' v hm
    dsimp only
    split
    · exact obeys_last (Regime.holds_second hm.orderly (hm.kept harguments))
    · exact R.holds_nil m'
  | or =>
    refine ⟨trivial, hfirst, ?_⟩
    intro m' v hm
    dsimp only
    split
    · trivial
    · exact obeys_last (Regime.holds_second hm.orderly (hm.kept harguments))
  | ifElse =>
    refine ⟨trivial, hfirst, ?_⟩
    intro m' v hm
    have harguments' := hm.kept harguments
    dsimp only
    split
    · exact obeys_last (Regime.holds_second hm.orderly harguments')
    · exact obeys_last (Regime.holds_third hm.orderly harguments')

theorem obeys_ofOperator {whole arguments : Value} (h : R.Orderly m) (name : String)
    (operator : Operator) (hwhole : R.Holds m whole) (harguments : R.Holds m arguments) :
    (ofOperator m name operator whole arguments).Obeys R m := by
  cases operator with
  | special form => exact obeys_ofSpecial h form hwhole harguments
  | arithmetic operation =>
    refine obeys_operands h harguments trivial (fun _ _ => trivial) ?_
    intro a b m'
    cases operation.onValues a b with
    | ok n => exact R.holds_number m' n
    | error trouble => trivial
  | comparison relation =>
    refine obeys_operands h harguments trivial (fun _ _ => trivial) ?_
    intro a b m'
    cases relation.onValues a b <;> trivial
  | equality => exact obeys_operands h harguments trivial (fun _ _ => trivial) fun _ _ _ => trivial

theorem obeys_ofFunction {function arguments : Value} (h : R.Orderly m)
    (hfunction : R.Holds m function) (harguments : R.Holds m arguments) :
    (ofFunction m function arguments).Obeys R m :=
  obeys_ofArguments (Regime.holds_second h hfunction) (Regime.holds_third h hfunction) (by simp)
    (Regime.holds_elements h harguments)

/-- The plan of an expression that may be held names nothing else. -/
theorem obeys_of {expression : Value} (h : R.Orderly m) (hx : R.Holds m expression) :
    (Plan.of m expression).Obeys R m := by
  cases expression with
  | nil | number | string => exact hx
  | symbol label =>
    show R.Holds m ((m.lookup (.symbol label)).getD .nil)
    cases hlookup : m.lookup (.symbol label) with
    | none => exact R.holds_nil m
    | some v => exact R.holds_lookup h hlookup
  | pair a =>
    have hhead := R.holds_first h hx
    have harguments := R.holds_rest h hx
    unfold Plan.of ofCall
    dsimp only
    split
    · split
      · exact obeys_ofOperator h _ _ hx harguments
      · split
        · rename_i bound hlookup
          split
          · exact obeys_ofFunction h (R.holds_lookup h hlookup) harguments
          · trivial
        · trivial
    · split
      · exact obeys_ofFunction h hhead harguments
      · trivial
    · trivial

end Plan

/-! ## Up to the limit -/

theorem memory_failing (condition : Condition) (s : Session) :
    ((failing condition).run s).2.memory = s.memory := by
  obtain ⟨memory, truth, settings, reported, abandoned⟩ := s
  cases abandoned <;> rfl

/-- An evaluation has kept to a regime, whether it has come to a value or to the limit. -/
def Ending.Meets {truth : Value} (R : Regime truth) (m : Memory) : Ending → Prop
  | (.ok v, s) => R.Yields m s.memory v
  | (.error waiting, s) =>
    R.Orderly s.memory ∧ m.Evolves s.memory ∧
      ∀ pending ∈ waiting, pending.All (R.Holds s.memory)

section UpToLimit

variable {truth : Value} {R : Regime truth}

theorem Ending.Meets.after {m m' : Memory} {ending : Ending} (h' : ending.Meets R m')
    (h : m.Evolves m') : ending.Meets R m := by
  obtain ⟨result, s⟩ := ending
  cases result with
  | ok v => exact Regime.Yields.after h' h
  | error waiting =>
    obtain ⟨horderly, hevolves, hwaiting⟩ := h'
    exact ⟨horderly, h.trans hevolves, hwaiting⟩

/-- A call around an evaluation that has kept to a regime. -/
theorem Ending.Meets.called {m : Memory} {parameters : Value} {arguments : List Value}
    {ending : Ending} (h : m.Valid) (hending : ending.Meets R (m.entered parameters arguments)) :
    Ending.Meets R m (ending.1, (Plan.leaveCall.run ending.2).2) := by
  obtain ⟨result, s⟩ := ending
  have hpop := s.memory.spares_pop
  cases result with
  | ok v =>
    exact ⟨R.popped hending.orderly, h.evolves_left hending.evolves, R.kept hpop hending.holds⟩
  | error waiting =>
    obtain ⟨horderly, hevolves, hwaiting⟩ := hending
    refine ⟨R.popped horderly, h.evolves_left hevolves, ?_⟩
    intro pending hpending
    exact (hwaiting pending hpending).mono fun v hv => R.kept hpop hv

/-- To follow a plan that obeys a regime keeps to it if the evaluation of its parts does. -/
theorem Plan.attempt_meets {stopping : Value → Session → Ending}
    (hcontinues : ∀ (x : Value) (s : Session), s.Continues (stopping x s).2)
    (hmeets : ∀ (x : Value) (s : Session), s.truth = truth → R.Orderly s.memory →
      R.Holds s.memory x → (stopping x s).Meets R s.memory)
    (plan : Plan) (s : Session) (htruth : s.truth = truth) (h : R.Orderly s.memory)
    (hplan : plan.Obeys R s.memory) : (plan.attempt stopping s).Meets R s.memory := by
  induction plan generalizing s with
  | value v => exact .here h hplan
  | truth b => exact .here h (Regime.holds_boolean htruth b _)
  | fault condition shallow =>
    show R.Yields s.memory ((failing condition).run s).2.memory .nil
    rw [memory_failing]
    exact .here h (R.holds_nil _)
  | bind key v =>
    obtain ⟨hkey, hv⟩ := hplan
    show R.Yields s.memory ((inMemory (Memory.define key v)).run s).2.memory
      ((inMemory (Memory.define key v)).run s).1
    rw [run_inMemory_define]
    exact Regime.yields_defined h hkey hv
  | enter parameters arguments body =>
    obtain ⟨hparameters, harguments, hbody⟩ := hplan
    have hbody' := R.kept ((R.valid h).spares_entered parameters arguments) hbody
    have hending := hmeets body { s with memory := s.memory.entered parameters arguments } htruth
      (R.entered h hparameters harguments) hbody'
    exact hending.called (R.valid h)
  | part pending expression next ih =>
    obtain ⟨hpending, hexpression, hnext⟩ := hplan
    have hpart := hmeets expression s htruth h hexpression
    have hkept := hcontinues expression s
    unfold attempt
    split
    · rename_i v s' hend
      rw [hend] at hpart hkept
      have hrest := ih v s'.memory s' (hkept.truth.trans htruth) hpart.orderly (hnext _ v hpart)
      exact hrest.after hpart.evolves
    · rename_i waiting s' hend
      rw [hend] at hpart
      obtain ⟨horderly, hevolves, hwaiting⟩ := hpart
      refine ⟨horderly, hevolves, ?_⟩
      intro other hother
      rcases List.mem_append.mp hother with hother | hother
      · exact hwaiting other hother
      · rw [List.mem_singleton.mp hother]
        exact hpending.mono fun v hv => R.kept hevolves.toSpares hv

/-- The stopping evaluator keeps to a regime, whether it stops or not. -/
theorem evaluateOrStop_meets (room : Nat) (expression : Value) (s : Session)
    (htruth : s.truth = truth) (h : R.Orderly s.memory) (hx : R.Holds s.memory expression) :
    (evaluateOrStop room expression s).Meets R s.memory := by
  induction room generalizing expression s with
  | zero => exact ⟨h, .refl s.memory, by simp⟩
  | succ room ih =>
    exact Plan.attempt_meets (evaluateOrStop_continues room)
      (fun x s htruth h hx => ih x s htruth h hx) _ s htruth h (Plan.obeys_of h hx)

end UpToLimit

/-! ## After the limit is hit -/

namespace Regime

variable {truth : Value} {R : Regime truth}

/-- To settle a waiting form keeps to a regime. -/
theorem yields_settle {s : Session} (htruth : s.truth = truth) (h : R.Orderly s.memory)
    {pending : Pending} (hpending : pending.All (R.Holds s.memory)) {v : Value}
    (hv : R.Holds s.memory v) :
    R.Yields s.memory ((pending.settle v).run s).2.memory ((pending.settle v).run s).1 := by
  cases pending with
  | passing => exact .here h hv
  | dropping => exact .here h (R.holds_nil _)
  | inverting => exact .here h (holds_boolean htruth _ _)
  | comparing other => exact .here h (holds_boolean htruth _ _)
  | binding arguments =>
    simp only [Pending.settle, run_bind, run_store, run_inMemory_define]
    exact yields_defined h (R.holds_first h hpending) hv
  | listing before missing =>
    have hitems : ∀ w ∈ before ++ v :: List.replicate missing .nil, R.Holds s.memory w := by
      intro w hw
      rcases List.mem_append.mp hw with hw | hw
      · exact hpending w hw
      · rcases List.mem_cons.mp hw with rfl | hw
        · exact hv
        · rw [List.eq_of_mem_replicate hw]
          exact R.holds_nil _
    exact yields_listed h hitems

theorem unwindFrom_yields {waiting : List Pending} {s : Session} (htruth : s.truth = truth)
    (h : R.Orderly s.memory) (hwaiting : ∀ pending ∈ waiting, pending.All (R.Holds s.memory))
    {v : Value} (hv : R.Holds s.memory v) :
    R.Yields s.memory ((unwindFrom v waiting).run s).2.memory
      ((unwindFrom v waiting).run s).1 := by
  induction waiting generalizing v s with
  | nil => exact .here h hv
  | cons pending waiting ih =>
    obtain ⟨hpending, hwaiting⟩ := List.forall_mem_cons.mp hwaiting
    have hsettled := yields_settle htruth h hpending hv
    have htruth' : ((pending.settle v).run s).2.truth = truth := by
      rw [run_settle_session]
      exact htruth
    have hwaiting' : ∀ other ∈ waiting,
        other.All (R.Holds ((pending.settle v).run s).2.memory) := by
      intro other hother
      exact (hwaiting other hother).mono fun w hw => hsettled.kept hw
    rw [run_unwindFrom_cons]
    exact (ih htruth' hsettled.orderly hwaiting' hsettled.holds).after hsettled.evolves

end Regime

/-- An evaluation that has kept to a regime keeps to it up to the last form that was waiting. -/
theorem Ending.Meets.resume {truth : Value} {R : Regime truth} {m : Memory} {ending : Ending}
    (h : ending.Meets R m) (htruth : ending.2.truth = truth) :
    R.Yields m ending.resume.2.memory ending.resume.1 := by
  obtain ⟨result, s⟩ := ending
  cases result with
  | ok v => exact h
  | error waiting =>
    obtain ⟨horderly, hevolves, hwaiting⟩ := h
    have hyields := Regime.unwindFrom_yields (s := s.abandon) (v := .nil) htruth horderly
      hwaiting (R.holds_nil _)
    exact hyields.after hevolves

end DynLisp
