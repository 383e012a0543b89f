/-
  Proofs/Frames.lean --- the environment in its cells, and as association lists.

  WHAT THIS FILE IS FOR.  An environment keeps its bindings in cells: two chains for
  each frame, walked side by side, and written into where a name that is bound is
  defined again.  `actAll_scopes` says that no sequence of operations can tell it from
  `Scopes`, which has no cells at all.

  THE STEP.  What one operation does to the cells is what the event of the same name
  does to the association lists (`Valid.perform_refines`), as long as nobody changes the cells of
  a list that a frame was pushed with.
-/
import DynLisp.Proofs.Provenance
import DynLisp.Proofs.Scopes

set_option autoImplicit false

namespace DynLisp.Memory

/-! ## What a caller does -/

/-- What the frames of a memory bind. -/
def scopes (m : Memory) : Scopes :=
  ⟨m.globalBindings, m.environment.calls.map fun frame => frame.bindings m.store⟩

/-- What a caller does with an environment, and with cells meanwhile. -/
inductive Act where
  /-- push a frame -/
  | push (symbols values : Value)
  /-- pop the innermost frame -/
  | pop
  /-- bind a key globally -/
  | define (key v : Value)
  | lookup (key : Value)
  /-- make a value that shows a datum -/
  | load (datum : Datum)
  | cons (first rest : Value)
  | list (items : List Value)
  | setFirst (address : Nat) (v : Value)
  | setRest (address : Nat) (v : Value)

/-- The cell is none of those of the lists that the calls going on were pushed with. -/
def Unlisted (m : Memory) (a : Nat) : Prop :=
  ∀ frame ∈ m.environment.calls,
    a ∉ m.store.links frame.symbols ∧ a ∉ m.store.links frame.values

namespace Act

/-- What an act does, and the values that the environment answers with. -/
def perform : Act → StateM Memory (List (Option Value))
  | push symbols values => do
    modify fun m => m.push symbols values
    return []
  | pop => do
    modify fun m => m.pop
    return []
  | define key v => return [some (← Memory.define key v)]
  | lookup key => return [(← get).lookup key]
  | load datum => do
    let _ ← making (Store.load datum)
    return []
  | cons first rest => do
    let _ ← making (Store.cons first rest)
    return []
  | list items => do
    let _ ← making (Store.list items)
    return []
  | setFirst address v => do
    modify fun m => { m with store := m.store.setFirst address v }
    return []
  | setRest address v => do
    modify fun m => { m with store := m.store.setRest address v }
    return []

/-- The values of an act can be seen: a caller does not make up cells, and has none of those of the
global frame.  A cell that is changed comes to be on no cycle, and is not part of a list that is in
use. -/
def Allowed (m : Memory) : Act → Prop
  | push symbols values => m.Visible symbols ∧ m.Visible values
  | define key v => m.Visible key ∧ m.Visible v
  | pop | lookup _ | load _ => True
  | cons first rest => m.Visible first ∧ m.Visible rest
  | list items => ∀ v ∈ items, m.Visible v
  | setFirst address v =>
    m.Visible (.pair address) ∧ m.Visible v ∧ m.Unlisted address ∧
      (m.store.setFirst address v).Grounded (.pair address)
  | setRest address v =>
    m.Visible (.pair address) ∧ m.Visible v ∧ m.Unlisted address ∧
      (m.store.setRest address v).Grounded (.pair address)

/-- What an act is to the scopes: a frame binds the elements that its lists have when it is pushed,
and what is done to cells is nothing. -/
def events (m : Memory) : Act → List Scopes.Event
  | push symbols values => [.push (Frame.bindings ⟨symbols, values⟩ m.store)]
  | pop => [.pop]
  | define key v => [.define key v]
  | lookup key => [.lookup key]
  | load _ | cons _ _ | list _ | setFirst _ _ | setRest _ _ => []

/-- What is defined, and as what. -/
def definitions : Act → Bindings
  | define key v => [(key, v)]
  | _ => []

/-- The act neither pushes nor pops a frame. -/
def staysLevel : Act → Bool
  | push _ _ | pop => false
  | _ => true

end Act

/-- Some acts in order, and all the values that the environment answers with. -/
def actAll : List Act → StateM Memory (List (Option Value))
  | [] => return []
  | act :: more => do
    let told ← act.perform
    return told ++ (← actAll more)

/-- The memory after some acts. -/
def afterAll (acts : List Act) (m : Memory) : Memory := ((actAll acts).run m).2

/-- Each of some acts is allowed when its turn comes. -/
def AllowedAll : List Act → Memory → Prop
  | [], _ => True
  | act :: more, m => act.Allowed m ∧ AllowedAll more (act.perform.run m).2

/-- What some acts are to the scopes. -/
def eventsAll : List Act → Memory → List Scopes.Event
  | [], _ => []
  | act :: more, m => act.events m ++ eventsAll more (act.perform.run m).2

/-! ## What a memory binds -/

theorem lookup_frame (frame : Frame) (s : Store) (key : Value) :
    frame.lookup s key = Bindings.value? (frame.bindings s) key := by
  unfold Frame.lookup Frame.slot? Bindings.value?
  rw [frame.bindings_eq_map, List.find?_map, Option.map_map, Option.map_map]
  rfl

/-- To look a key up is to look it up in the scopes. -/
theorem lookup_eq_scopes (m : Memory) (key : Value) : m.lookup key = m.scopes.lookup key := by
  unfold Memory.lookup Environment.lookup Scopes.lookup scopes globalBindings
  rw [← List.map_singleton (f := fun frame : Frame => frame.bindings m.store), ← List.map_append,
    List.findSome?_map]
  simp only [lookup_frame]
  rfl

theorem scopes_pop (m : Memory) :
    m.pop.scopes = { m.scopes with calls := m.scopes.calls.tail } :=
  congrArg (Scopes.mk m.globalBindings) List.map_tail

section Steps

variable {m m' : Memory} (h : m.Valid)
include h

/-- New cells change nothing that is bound. -/
theorem Valid.scopes_eq_of_grows (hm : m.Grows m') : m'.scopes = m.scopes := by
  have hspares := (hm.evolves h).toSpares
  unfold scopes
  rw [h.globalBindings_eq_of_grows hm, hm.environment]
  exact congrArg _ (List.map_congr_left fun frame hframe => h.bindings_eq hspares hframe)

theorem Valid.scopes_defined {key v : Value} (hkey : m.Visible key) (hv : m.Visible v) :
    (m.defined key v).scopes = { m.scopes with globals := m.scopes.globals.assign key v } := by
  have hevolves := (h.defined hkey hv).evolves
  unfold scopes
  rw [h.globalBindings_defined, hevolves.calls]
  exact congrArg _ (List.map_congr_left fun frame hframe => h.bindings_eq hevolves.toSpares hframe)

/-- A change to a cell that no list in use has does not change what is bound. -/
theorem Valid.scopes_update {a : Nat} (ha : m.Visible (.pair a)) (hidle : m.Unlisted a)
    (change : Cell → Cell) :
    scopes { m with store := m.store.update a change } = m.scopes := by
  have hother : ∀ b, b ≠ a → (m.store.update a change).cell b = m.store.cell b :=
    fun b hb => Store.cell_update_of_ne hb change
  have hlist : ∀ v, (∃ last, m.store.Chain v (m.store.links v) last) → a ∉ m.store.links v →
      (m.store.update a change).elements v = m.store.elements v := by
    rintro v ⟨last, hchain⟩ hout
    have hcell : ∀ b ∈ m.store.links v, (m.store.update a change).cell b = m.store.cell b :=
      fun b hb => hother b fun heq => hout (heq ▸ hb)
    have hchain' : (m.store.update a change).Chain v (m.store.links v) last :=
      hchain.congr fun b hb => ⟨by simpa using hchain.lt_size b hb, congrArg Cell.rest (hcell b hb)⟩
    rw [hchain'.elements_eq, hchain.elements_eq]
    exact List.map_congr_left fun b hb => congrArg Cell.first (hcell b hb)
  unfold scopes globalBindings Frame.bindings
  rw [hlist _ ⟨_, h.keys⟩ ha.2.1, hlist _ ⟨_, h.values⟩ ha.2.2]
  refine congrArg _ (List.map_congr_left fun frame hframe => ?_)
  obtain ⟨hsymbols, hvalues⟩ := h.calls frame hframe
  obtain ⟨hout, hout'⟩ := hidle frame hframe
  rw [hlist _ ⟨_, h.chain hsymbols⟩ hout, hlist _ ⟨_, h.chain hvalues⟩ hout']

end Steps

theorem grows_load (m : Memory) (datum : Datum) :
    m.Grows { m with store := ((Store.load datum).run m.store).2 } := by
  induction datum generalizing m with
  | nil | number | string | symbol => exact ⟨rfl, Nat.le_refl _, fun _ _ => rfl⟩
  | cons first rest ihfirst ihrest =>
    exact ((ihfirst m).trans (ihrest _)).trans (grows_appended _ _ _)

theorem run_perform_define (m : Memory) (key v : Value) :
    (Act.define key v).perform.run m = ([some v], m.defined key v) := by
  simp only [Act.perform, run_bind, run_define, run_pure]

/-- What an act does to the scopes, and what it answers, is what its event does and tells. -/
theorem Valid.perform_refines {m : Memory} (h : m.Valid) {act : Act} (hallowed : act.Allowed m) :
    (act.perform.run m).2.Valid ∧
      (Scopes.happenAll (act.events m)).run m.scopes =
        ((act.perform.run m).1, (act.perform.run m).2.scopes) := by
  cases act with
  | push symbols values => exact ⟨h.push hallowed.1 hallowed.2, rfl⟩
  | pop => exact ⟨h.pop, congrArg ([], ·) m.scopes_pop.symm⟩
  | define key v =>
    obtain ⟨hkey, hv⟩ := hallowed
    rw [run_perform_define]
    exact ⟨(h.defined hkey hv).valid, congrArg ([some v], ·) (h.scopes_defined hkey hv).symm⟩
  | lookup key => exact ⟨h, congrArg (fun v => ([v], m.scopes)) (m.lookup_eq_scopes key).symm⟩
  | load datum =>
    exact ⟨(h.load datum).valid,
      congrArg ([], ·) (h.scopes_eq_of_grows (m.grows_load datum)).symm⟩
  | cons first rest =>
    exact ⟨(h.appended hallowed.1 hallowed.2).valid,
      congrArg ([], ·) (h.scopes_eq_of_grows (m.grows_appended first rest)).symm⟩
  | list items =>
    exact ⟨(h.list hallowed).valid,
      congrArg ([], ·) (h.scopes_eq_of_grows (m.grows_list items)).symm⟩
  | setFirst address v =>
    obtain ⟨ha, hv, hidle, hgrounded⟩ := hallowed
    exact ⟨(h.changed ha hv (h.cell_visible address ha).2 hgrounded).1,
      congrArg ([], ·) (h.scopes_update ha hidle _).symm⟩
  | setRest address v =>
    obtain ⟨ha, hv, hidle, hgrounded⟩ := hallowed
    exact ⟨(h.changed ha (h.cell_visible address ha).1 hv hgrounded).1,
      congrArg ([], ·) (h.scopes_update ha hidle _).symm⟩

/-- What a caller has stays to be seen, and so can what it is told.  So to be allowed asks no more
of the values of an act than that they have come from somewhere. -/
theorem Valid.perform_visible {m : Memory} (h : m.Valid) {act : Act} (hallowed : act.Allowed m) :
    (∀ w, m.Visible w → (act.perform.run m).2.Visible w) ∧
      ∀ v, some v ∈ (act.perform.run m).1 → (act.perform.run m).2.Visible v := by
  cases act with
  | push | pop => exact ⟨fun _ hw => hw, fun _ hv => absurd hv List.not_mem_nil⟩
  | define key v =>
    have hdefined := h.defined hallowed.1 hallowed.2
    rw [run_perform_define]
    refine ⟨fun _ hw => hdefined.evolves.visible hw, fun w hw => ?_⟩
    obtain rfl : w = v := by simpa using hw
    exact hdefined.visible
  | lookup key =>
    refine ⟨fun _ hw => hw, fun v hv => h.lookup_visible (List.mem_singleton.mp hv).symm⟩
  | load datum =>
    exact ⟨fun _ hw => (h.load datum).evolves.visible hw, fun _ hv => absurd hv List.not_mem_nil⟩
  | cons first rest =>
    have hpair := h.appended hallowed.1 hallowed.2
    exact ⟨fun _ hw => hpair.evolves.visible hw, fun _ hv => absurd hv List.not_mem_nil⟩
  | list items =>
    exact ⟨fun _ hw => (h.list hallowed).evolves.visible hw,
      fun _ hv => absurd hv List.not_mem_nil⟩
  | setFirst address v =>
    obtain ⟨ha, hv, -, hgrounded⟩ := hallowed
    exact ⟨(h.changed ha hv (h.cell_visible address ha).2 hgrounded).2,
      fun _ hv => absurd hv List.not_mem_nil⟩
  | setRest address v =>
    obtain ⟨ha, hv, -, hgrounded⟩ := hallowed
    exact ⟨(h.changed ha (h.cell_visible address ha).1 hv hgrounded).2,
      fun _ hv => absurd hv List.not_mem_nil⟩

/-! ## Many acts -/

theorem run_actAll_cons (act : Act) (more : List Act) (m : Memory) :
    (actAll (act :: more)).run m =
      ((act.perform.run m).1 ++ ((actAll more).run (act.perform.run m).2).1,
        ((actAll more).run (act.perform.run m).2).2) := rfl

theorem afterAll_append (before after : List Act) (m : Memory) :
    afterAll (before ++ after) m = afterAll after (afterAll before m) := by
  induction before generalizing m with
  | nil => rfl
  | cons act more ih => exact ih (act.perform.run m).2

theorem allowedAll_append {before after : List Act} {m : Memory} :
    AllowedAll (before ++ after) m ↔
      AllowedAll before m ∧ AllowedAll after (afterAll before m) := by
  induction before generalizing m with
  | nil => exact ⟨fun hafter => ⟨trivial, hafter⟩, fun h => h.2⟩
  | cons act more ih =>
    rw [List.cons_append, AllowedAll, AllowedAll, ih, and_assoc]
    exact Iff.rfl

theorem Valid.actAll_refines {m : Memory} (h : m.Valid) {acts : List Act}
    (hallowed : AllowedAll acts m) :
    (afterAll acts m).Valid ∧
      (Scopes.happenAll (eventsAll acts m)).run m.scopes =
        (((Memory.actAll acts).run m).1, (afterAll acts m).scopes) := by
  induction acts generalizing m with
  | nil => exact ⟨h, rfl⟩
  | cons act more ih =>
    obtain ⟨hact, hmore⟩ := hallowed
    obtain ⟨hvalid, hevents⟩ := h.perform_refines hact
    obtain ⟨hvalid', hevents'⟩ := ih hvalid hmore
    refine ⟨hvalid', ?_⟩
    rw [eventsAll, Scopes.happenAll_append, hevents, hevents', run_actAll_cons]
    rfl

theorem Valid.actAll_visible {m : Memory} (h : m.Valid) {acts : List Act}
    (hallowed : AllowedAll acts m) :
    (∀ w, m.Visible w → (afterAll acts m).Visible w) ∧
      ∀ v, some v ∈ ((Memory.actAll acts).run m).1 → (afterAll acts m).Visible v := by
  induction acts generalizing m with
  | nil => exact ⟨fun _ hw => hw, fun _ hv => absurd hv List.not_mem_nil⟩
  | cons act more ih =>
    obtain ⟨hact, hmore⟩ := hallowed
    obtain ⟨hheld, htold⟩ := h.perform_visible hact
    obtain ⟨hheld', htold'⟩ := ih (h.perform_refines hact).1 hmore
    refine ⟨fun w hw => hheld' w (hheld w hw), fun v hv => ?_⟩
    rcases List.mem_append.mp hv with hv | hv
    · exact hheld' v (htold v hv)
    · exact htold' v hv

/-! ## Between a push and its pop -/

/-- Every frame that the acts push they pop again, and no other. -/
inductive Balanced : List Act → Prop where
  | nil : Balanced []
  | act {act : Act} (hact : act.staysLevel = true) {more : List Act} (hmore : Balanced more) :
    Balanced (act :: more)
  | call (symbols values : Value) {inner more : List Act} (hinner : Balanced inner)
    (hmore : Balanced more) : Balanced (.push symbols values :: inner ++ .pop :: more)

/-- An act on the same level does nothing to the scopes but what it defines. -/
theorem Valid.scopes_of_staysLevel {m : Memory} (h : m.Valid) {act : Act}
    (hallowed : act.Allowed m) (hlevel : act.staysLevel = true) :
    (act.perform.run m).2.scopes = m.scopes.defining act.definitions := by
  have hscopes : ((Scopes.happenAll (act.events m)).run m.scopes).2 =
      (act.perform.run m).2.scopes := congrArg Prod.snd (h.perform_refines hallowed).2
  rw [← hscopes]
  cases act with
  | push | pop => simp [Act.staysLevel] at hlevel
  | define | lookup | load | cons | list | setFirst | setRest => rfl

/-- What is balanced leaves of itself what it has defined. -/
theorem Valid.scopes_of_balanced {acts : List Act} (hbalanced : Balanced acts) {m : Memory}
    (h : m.Valid) (hallowed : AllowedAll acts m) :
    (afterAll acts m).scopes = m.scopes.defining (acts.flatMap Act.definitions) := by
  induction hbalanced generalizing m with
  | nil => rfl
  | @act act hact more _ ih =>
    obtain ⟨hfirst, hmore⟩ := hallowed
    have hafter := ih (h.perform_refines hfirst).1 hmore
    rw [h.scopes_of_staysLevel hfirst hact, Scopes.defining_defining] at hafter
    rw [List.flatMap_cons]
    exact hafter
  | @call symbols values inner more _ _ ihinner ihmore =>
    rw [List.cons_append] at hallowed ⊢
    obtain ⟨hpush, hrest⟩ := hallowed
    obtain ⟨hinner, -, hmore⟩ := allowedAll_append.mp hrest
    have hpushed := h.push hpush.1 hpush.2
    -- The frame that is pushed is the first one again when it is popped.
    have hscopes := ihinner hpushed hinner
    have hpopped : (afterAll inner (m.push symbols values)).pop.scopes =
        m.scopes.defining (inner.flatMap Act.definitions) := by
      rw [scopes_pop, hscopes]
      rfl
    have hafter := ihmore (hpushed.actAll_refines hinner).1.pop hmore
    rw [hpopped, Scopes.defining_defining] at hafter
    have hdefinitions : (Act.push symbols values :: (inner ++ Act.pop :: more)).flatMap
        Act.definitions = inner.flatMap Act.definitions ++ more.flatMap Act.definitions := by
      simp [Act.definitions]
    rw [hdefinitions, ← hafter]
    exact congrArg scopes (afterAll_append inner (.pop :: more) (m.push symbols values))

/-! ## What a caller can rely on -/

section Reliance

variable {m : Memory} (h : m.Valid)
include h

/-- The two chains of the global frame are lists of one length. -/
theorem Valid.globals_proper :
    m.store.isProperList m.environment.globals.symbols = true ∧
      m.store.isProperList m.environment.globals.values = true ∧
      m.store.chainLength m.environment.globals.symbols =
        m.store.chainLength m.environment.globals.values := by
  refine ⟨?_, ?_, h.paired⟩
  · simp [Store.isProperList, h.keys.tail_eq]
  · simp [Store.isProperList, h.values.tail_eq]

variable {key v : Value}

theorem Valid.globalBindings_defined_of_bound (hdistinct : Bindings.Distinct m.globalBindings)
    (before : Bindings) (k w : Value) (after : Bindings)
    (hsplit : m.globalBindings = before ++ (k, w) :: after) (hequal : k.equalAtoms key = true) :
    (m.defined key v).globalBindings = before ++ (k, v) :: after := by
  rw [hsplit] at hdistinct
  rw [h.globalBindings_defined, hsplit]
  exact (hdistinct.lacks hequal).assign_append hequal after

theorem Valid.globalBindings_defined_of_new
    (hnew : (∃ a, key = .pair a) ∨ Bindings.Lacks m.globalBindings key) :
    (m.defined key v).globalBindings = (key, v) :: m.globalBindings := by
  rw [h.globalBindings_defined]
  rcases hnew with ⟨a, rfl⟩ | hlacks
  · exact (Bindings.lacks_pair _ a).assign_eq
  · exact hlacks.assign_eq

variable (hkey : m.Visible key) (hv : m.Visible v)
include hkey hv

/-- A definition is seen by whoever looks the key up, unless a call binds it. -/
theorem Valid.lookup_defined (hatom : ∀ a, key ≠ .pair a)
    (hcalls : ∀ bindings ∈ m.scopes.calls, Bindings.Lacks bindings key) :
    (m.defined key v).lookup key = some v := by
  rw [lookup_eq_scopes, h.scopes_defined hkey hv]
  exact Scopes.lookup_defined_of_lacks hatom hcalls

theorem Valid.lookup_defined_of_bound
    (hbound : ∃ bindings ∈ m.scopes.calls, ¬ Bindings.Lacks bindings key) :
    (m.defined key v).lookup key = m.lookup key := by
  rw [lookup_eq_scopes, lookup_eq_scopes, h.scopes_defined hkey hv]
  exact Scopes.lookup_congr_of_bound rfl hbound

theorem Valid.lookup_defined_of_ne {other : Value} (hne : key.equalAtoms other = false) :
    (m.defined key v).lookup other = m.lookup other := by
  rw [lookup_eq_scopes, lookup_eq_scopes, h.scopes_defined hkey hv]
  exact Scopes.lookup_congr rfl (Bindings.value?_assign_of_ne hne)

end Reliance

/-- After a call, what was bound before it is bound again, but for what has been defined since. -/
theorem Valid.scopes_of_call {m : Memory} (h : m.Valid) {symbols values : Value}
    {inner : List Act} (hinner : Balanced inner)
    (hallowed : AllowedAll (.push symbols values :: inner ++ [.pop]) m) :
    (afterAll (.push symbols values :: inner ++ [.pop]) m).scopes =
      m.scopes.defining (inner.flatMap Act.definitions) := by
  have hscopes := h.scopes_of_balanced (.call symbols values hinner .nil) hallowed
  simpa [Act.definitions] using hscopes

/-- Let a caller do whatever it likes with an environment that binds nothing at first, where lists
that frames have been pushed with are left alone as long as they are in use.  Then:

* all that it is told is what a stack of association lists over one map of the global names would
  tell, and a key is bound to a value exactly if the first equal key of the innermost frame that
  has one is;
* the keys and the values of the global frame are proper lists of one length, and no two of the
  keys are equal;
* when a frame is popped, the environment is what it was when the frame was pushed, but for what
  has been defined globally since;
* to define a key that is bound globally replaces its value, and to define any other one, or a pair,
  makes a new binding in front of all others.  The new value is seen wherever no call binds the key,
  and no other key is affected. -/
theorem actAll_scopes {acts : List Act} (hallowed : AllowedAll acts .empty) :
    let ended := (Memory.actAll acts).run .empty
    let m := ended.2
    ((Scopes.happenAll (eventsAll acts .empty)).run {} = (ended.1, m.scopes) ∧
      ∀ key v, m.lookup key = some v ↔ m.scopes.Means key v) ∧
    (m.store.isProperList m.environment.globals.symbols = true ∧
      m.store.isProperList m.environment.globals.values = true ∧
      m.store.chainLength m.environment.globals.symbols =
        m.store.chainLength m.environment.globals.values ∧
      Bindings.Distinct m.globalBindings) ∧
    (∀ before symbols values inner, acts = before ++ (.push symbols values :: inner ++ [.pop]) →
      Balanced inner →
        let m₀ := afterAll before .empty
        let writes := inner.flatMap Act.definitions
        m.scopes = m₀.scopes.defining writes ∧
          ∀ key, (∀ write ∈ writes, write.1.equalAtoms key = false) →
            m.lookup key = m₀.lookup key) ∧
    ∀ key v, m.Visible key → m.Visible v →
      let m' := ((Memory.define key v).run m).2
      ((∀ before k w after, m.globalBindings = before ++ (k, w) :: after →
          k.equalAtoms key = true → m'.globalBindings = before ++ (k, v) :: after) ∧
        ((∃ a, key = .pair a) ∨ Bindings.Lacks m.globalBindings key →
          m'.globalBindings = (key, v) :: m.globalBindings)) ∧
      ((∀ a, key ≠ .pair a) → (∀ bindings ∈ m.scopes.calls, Bindings.Lacks bindings key) →
        m'.lookup key = some v) ∧
      ((∃ bindings ∈ m.scopes.calls, ¬ Bindings.Lacks bindings key) →
        m'.lookup key = m.lookup key) ∧
      ∀ other, key.equalAtoms other = false → m'.lookup other = m.lookup other := by
  intro ended m
  have hvalid : m.Valid := (valid_empty.actAll_refines hallowed).1
  have hrun : (Scopes.happenAll (eventsAll acts .empty)).run {} = (ended.1, m.scopes) :=
    (valid_empty.actAll_refines hallowed).2
  have hglobals : ((Scopes.happenAll (eventsAll acts .empty)).run {}).2.globals =
      m.globalBindings := congrArg (fun ran => ran.2.globals) hrun
  have hdistinct : Bindings.Distinct m.globalBindings := by
    rw [← hglobals]
    exact Scopes.distinct_happenAll _ List.Pairwise.nil
  obtain ⟨hsymbols, hvalues, hlength⟩ := hvalid.globals_proper
  refine ⟨⟨hrun, ?_⟩, ⟨hsymbols, hvalues, hlength, hdistinct⟩, ?_, ?_⟩
  · intro key v
    rw [lookup_eq_scopes]
    exact Scopes.lookup_eq_some_iff
  · rintro before symbols values inner rfl hbalanced m₀ writes
    obtain ⟨hbefore, hcall⟩ := allowedAll_append.mp hallowed
    have hscopes : m.scopes = m₀.scopes.defining writes := by
      have hcall' := (valid_empty.actAll_refines hbefore).1.scopes_of_call hbalanced hcall
      rwa [← afterAll_append] at hcall'
    refine ⟨hscopes, fun key hwrites => ?_⟩
    rw [lookup_eq_scopes, lookup_eq_scopes, hscopes]
    exact Scopes.lookup_congr rfl (Bindings.value?_assignAll_of_ne hwrites)
  · intro key v hkey hv m'
    have hm' : m' = m.defined key v := congrArg Prod.snd (m.run_define key v)
    rw [hm']
    exact ⟨⟨hvalid.globalBindings_defined_of_bound hdistinct, hvalid.globalBindings_defined_of_new⟩,
      hvalid.lookup_defined hkey hv, hvalid.lookup_defined_of_bound hkey hv,
      fun _ hne => hvalid.lookup_defined_of_ne hkey hv hne⟩

/-- A caller makes the list `(x y . z)` in cell 1, ending in a symbol, and the list `(1)` in cell 2,
binds `x` to 5, and pushes and pops a frame, in which it defines `x` and a pair. -/
def shadowingActs : List Act :=
  let x : Value := .symbol ⟨0, "x"⟩
  let one : Value := .number (.integer 1)
  let five : Value := .number (.integer 5)
  let six : Value := .number (.integer 6)
  [.cons (.symbol ⟨1, "y"⟩) (.symbol ⟨2, "z"⟩), .cons x (.pair 0), .cons one .nil,
    .define x five, .push (.pair 1) (.pair 2), .define x six, .define (.pair 2) six, .lookup x,
    .lookup (.symbol ⟨1, "y"⟩), .pop]

/-- Inside the call `x` is the argument and `y` has none.  After it `x` is what it has been defined
as meanwhile. -/
theorem actAll_scopes_shadowing :
    let ended := (Memory.actAll shadowingActs).run .empty
    AllowedAll shadowingActs .empty ∧
      ended.1 = [some (.number (.integer 5)), some (.number (.integer 6)),
        some (.number (.integer 6)), some (.number (.integer 1)), none] ∧
      ended.2.globalBindings = [(.pair 2, .number (.integer 6)),
        (.symbol ⟨0, "x"⟩, .number (.integer 6))] ∧
      ended.2.scopes.Means (.symbol ⟨3, "x"⟩) (.number (.integer 6)) := by
  have hallowed : AllowedAll shadowingActs .empty :=
    ⟨⟨trivial, trivial⟩, ⟨trivial, by decide +kernel⟩, ⟨trivial, trivial⟩, ⟨trivial, trivial⟩,
      ⟨by decide +kernel, by decide +kernel⟩, ⟨trivial, trivial⟩, ⟨by decide +kernel, trivial⟩,
      trivial, trivial, trivial, trivial⟩
  have hlookup : ((Memory.actAll shadowingActs).run .empty).2.lookup (.symbol ⟨3, "x"⟩) =
      some (.number (.integer 6)) := by decide +kernel
  exact ⟨hallowed, by decide +kernel, by decide +kernel,
    ((actAll_scopes hallowed).1.2 _ _).mp hlookup⟩

end DynLisp.Memory
