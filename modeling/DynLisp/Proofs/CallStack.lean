/-
  Proofs/CallStack.lean --- what a program can tell of the calls going on.

  WHAT THIS FILE IS FOR.  A program looks names up, and that is its only way to the
  frames of the calls it runs in.  So how many frames there are, how the bindings are
  spread over them, and what is bound in them beneath other bindings of the name, makes
  no difference to it (`evaluate_sees_calls_by_name`).

  WHAT IS THE SAME.  Two memories may have the values in common that they bind
  (`BindsAlike`).  Or they have nothing in common, and what they bind shows the same
  (`ShowsAlike`).  Evaluation keeps either, and gives values that are in common or show
  the same in their turn.
-/
import DynLisp.Proofs.Sharing

set_option autoImplicit false

namespace DynLisp

open Evaluation

namespace Memory

/-- What the innermost call that binds a name binds it to. -/
def calledName (m : Memory) (name : String) : Option Value :=
  m.environment.calls.findSome? fun frame => frame.lookup m.store (.symbol ⟨0, name⟩)

/-- What is bound globally is the same in both memories, and so is what calls bind each name to.
All of it is shared. -/
structure BindsAlike (m m' : Memory) : Prop where
  globals : m'.globalBindings = m.globalBindings
  calls : ∀ name, m'.calledName name = m.calledName name
  global_shared : ∀ binding ∈ m.globalBindings, m.Shares m' binding.1 ∧ m.Shares m' binding.2
  called_shared : ∀ name v, m.calledName name = some v → m.Shares m' v

/-- What the keys and the values of the global bindings show. -/
def shownGlobals (m : Memory) : List (Datum × Datum) :=
  m.globalBindings.map fun binding => (m.store.content binding.1, m.store.content binding.2)

/-- What the value shows that the innermost call that binds a name binds it to. -/
def shownName (m : Memory) (name : String) : Option Datum :=
  (m.calledName name).map m.store.content

/-- The global bindings show the same in both memories, and so does what calls bind each name to. -/
structure ShowsAlike (m m' : Memory) : Prop where
  globals : m'.shownGlobals = m.shownGlobals
  calls : ∀ name, m'.shownName name = m.shownName name

/-- A name is looked up by its text. -/
theorem calledValue_symbol (m : Memory) (label : Label) :
    m.calledValue (.symbol label) = m.calledName label.text := by
  have hkey : (fun frame : Frame => frame.lookup m.store (.symbol ⟨0, label.text⟩)) =
      fun frame => Bindings.value? (frame.bindings m.store) (.symbol label) := by
    funext frame
    rw [lookup_frame]
    unfold Bindings.value?
    congr 2
    funext binding
    cases binding.1 <;> rfl
  rw [calledName, hkey, calledValue, scopes, List.findSome?_map]
  rfl

theorem Valid.calledName_eq {m m' : Memory} (h : m.Valid) (hm : m.Evolves m') (name : String) :
    m'.calledName name = m.calledName name := by
  have hcalled := h.calledValue_eq hm (.symbol ⟨0, name⟩)
  rwa [calledValue_symbol, calledValue_symbol] at hcalled

theorem Valid.calledName_visible {m : Memory} (h : m.Valid) {name : String} {v : Value}
    (hv : m.calledName name = some v) : m.Visible v := by
  have hlookup : m.lookup (.symbol ⟨0, name⟩) = some v := by
    rw [lookup_eq_or, calledValue_symbol, hv]
    rfl
  exact h.lookup_visible hlookup

theorem Valid.visible_of_mem_globalBindings {m : Memory} (h : m.Valid) {binding : Value × Value}
    (hb : binding ∈ m.globalBindings) : m.Visible binding.1 ∧ m.Visible binding.2 :=
  (binds_of_mem_globalBindings hb).imp h.visible_of_binds h.visible_of_binds

/-- With more cells, and whatever calls, all that could be seen is shared. -/
theorem Valid.shares_calling {m m' : Memory} (h : m.Valid) (hm : m.Grows m') (calls : List Frame)
    {v : Value} (hv : m.Visible v) : m.Shares (m'.calling calls) v :=
  h.shares (fun a ha => (hm.evolves h).cells a ha) hv

/-- A memory that has more cells, and other calls that bind the names to the same values, binds
alike. -/
theorem Valid.bindsAlike_calling {m m' : Memory} (h : m.Valid) (hm : m.Grows m')
    {calls : List Frame} (hcalls : ∀ name, (m'.calling calls).calledName name = m.calledName name) :
    m.BindsAlike (m'.calling calls) := by
  have hglobals := h.globalBindings_eq_of_grows hm
  constructor
  case globals => exact hglobals
  case calls => exact hcalls
  case global_shared =>
    intro binding hb
    obtain ⟨hkey, hv⟩ := h.visible_of_mem_globalBindings hb
    exact ⟨h.shares_calling hm calls hkey, h.shares_calling hm calls hv⟩
  case called_shared =>
    exact fun name v hv => h.shares_calling hm calls (h.calledName_visible hv)

theorem calledName_push (m : Memory) (symbols values : Value) (name : String) :
    (m.push symbols values).calledName name =
      (Frame.lookup ⟨symbols, values⟩ m.store (.symbol ⟨0, name⟩)).or (m.calledName name) := by
  show List.findSome? (fun frame => frame.lookup m.store (.symbol ⟨0, name⟩))
    (⟨symbols, values⟩ :: m.environment.calls) = _
  rw [List.findSome?_cons]
  cases Frame.lookup ⟨symbols, values⟩ m.store (.symbol ⟨0, name⟩) <;> rfl

/-- In a call that is entered twice with the same lists, names mean what they mean in one. -/
theorem Valid.bindsAlike_twice {m : Memory} {symbols values : Value}
    (h : (m.push symbols values).Valid) :
    (m.push symbols values).BindsAlike ((m.push symbols values).push symbols values) := by
  have hself : (m.push symbols values).Grows (m.push symbols values) :=
    ⟨rfl, Nat.le_refl _, fun _ _ => rfl⟩
  have hstore : (m.push symbols values).store = m.store := rfl
  refine h.bindsAlike_calling hself fun name => ?_
  show ((m.push symbols values).push symbols values).calledName name = _
  rw [calledName_push (m.push symbols values), calledName_push m, hstore, ← Option.or_assoc,
    Option.or_self]

end Memory

open Memory

/-! ## Values in common -/

section Common

variable {m m' n n' : Memory}

theorem common_of_shares {v : Value} (h : m.Shares m' v) : Likeness.Common m m' [] v :=
  ⟨h, fun _ _ => by simp [Bindings.Lacks]⟩

/-- Each value that is shared is taken for itself, and the second memory binds no more names. -/
def Likeness.selfsame (m m' : Memory) : Likeness m m' := sharing m m' [] (by simp)

theorem Memory.BindsAlike.agree (h : m.Valid) (h' : m'.Valid) (hbinds : m.BindsAlike m') :
    (Likeness.selfsame m m').Agree m m' := by
  refine ⟨h, h', .refl m, .refl m', ?_, (Likeness.extends_iff_of_nil rfl).mpr ?_⟩
  · rintro label _ ⟨⟨⟩, -⟩
    rw [calledValue_symbol, calledValue_symbol, hbinds.calls]
    exact Likeness.relates_self fun v hv => common_of_shares (hbinds.called_shared _ v hv)
  · rw [hbinds.globals]
    exact Likeness.likeBinding_self fun binding hb =>
      ⟨common_of_shares (hbinds.global_shared binding hb).1,
        common_of_shares (hbinds.global_shared binding hb).2⟩

/-- What has come of two memories that bind alike, and agrees, binds alike again. -/
theorem Memory.BindsAlike.of_agree (h : m.Valid) (h' : m'.Valid) (hbinds : m.BindsAlike m')
    (hagree : (Likeness.selfsame m m').Agree n n') (hn : m.Evolves n) (hn' : m'.Evolves n') :
    n.BindsAlike n' := by
  obtain ⟨hglobals, hcommon⟩ :=
    Likeness.eq_of_likeBinding ((Likeness.extends_iff_of_nil rfl).mp hagree.globals)
  have hshares : ∀ {v : Value}, m.Shares m' v → n.Shares n' v :=
    fun hv => hv.spares hn.toSpares hn'.toSpares
  constructor
  case globals => exact hglobals
  case calls =>
    intro name
    rw [h.calledName_eq hn, h'.calledName_eq hn', hbinds.calls]
  case global_shared =>
    exact fun binding hb => ⟨hshares (hcommon binding hb).1.1, hshares (hcommon binding hb).2.1⟩
  case called_shared =>
    intro name v hv
    rw [h.calledName_eq hn] at hv
    exact hshares (hbinds.called_shared name v hv)

end Common

/-- Two sessions that bind alike, and are otherwise the same, evaluate what they share to the same
value, report the same, and bind alike afterwards. -/
theorem Session.Valid.evaluate_bindsAlike {s s' : Session} (h : s.Valid) (h' : s'.Valid)
    (hsettings : s'.settings = s.settings) (hbinds : s.memory.BindsAlike s'.memory) {x : Value}
    (hx : s.memory.Shares s'.memory x) :
    let ended := (evaluate x).run s
    let ended' := (evaluate x).run s'
    ended'.1 = ended.1 ∧ s'.reportsOf x = s.reportsOf x ∧
      ended.2.memory.BindsAlike ended'.2.memory ∧
      ended.2.memory.Shares ended'.2.memory ended.1 := by
  intro ended ended'
  have hagree := hbinds.agree h.memory h'.memory
  have htruth : (Likeness.selfsame s.memory s'.memory).Like s.truth s'.truth := by
    rw [h.truth, h'.truth]
    exact ⟨rfl, common_of_shares (.of_atom (by simp))⟩
  have hlike : (Likeness.selfsame s.memory s'.memory).Like x x := ⟨rfl, common_of_shares hx⟩
  obtain ⟨hvalue, hreports, hended, hevolves, hevolves'⟩ :=
    Likeness.evaluate_alike hagree htruth hsettings hlike
  exact ⟨hvalue.1.symm, hreports, hbinds.of_agree h.memory h'.memory hended hevolves hevolves',
    hvalue.2.1.spares hevolves.toSpares hevolves'.toSpares⟩

/-! ## Values that show the same -/

section Shown

variable {m m' n n' : Memory}

theorem resembles_of_shows {s s' : Store} {v w : Value} {datum : Datum} (h : s.Shows v datum)
    (h' : s'.Shows w datum) : v.Resembles w := by
  cases h with
  | nil => cases h'; exact .nil
  | number n => cases h'; exact .number n
  | string label =>
    generalize htext : label.text = text at h'
    cases h'
    exact .string htext
  | symbol label =>
    generalize htext : label.text = text at h'
    cases h'
    exact .symbol htext
  | pair => cases h'; exact .pair _ _

/-- Values are taken for each other if they show the same. -/
def Likeness.showing (h : m.Valid) (h' : m'.Valid) : Likeness m m' where
  Like v w := m.Visible v ∧ m'.Visible w ∧
    ∃ datum, m.store.Shows v datum ∧ m'.store.Shows w datum
  extra := []
  nil := ⟨trivial, trivial, _, .nil, .nil⟩
  number n := ⟨trivial, trivial, _, .number n, .number n⟩
  resembles := fun ⟨_, _, _, hv, hw⟩ => resembles_of_shows hv hw
  visible hlike := hlike.1
  visible' hlike := hlike.2.1
  first := by
    rintro a b ⟨ha, hb, datum, hshows, hshows'⟩
    cases hshows with
    | pair _ hfirst _ =>
      cases hshows' with
      | pair _ hfirst' _ =>
        exact ⟨(h.cell_visible a ha).1, (h'.cell_visible b hb).1, _, hfirst, hfirst'⟩
  rest := by
    rintro a b ⟨ha, hb, datum, hshows, hshows'⟩
    cases hshows with
    | pair _ _ hrest =>
      cases hshows' with
      | pair _ _ hrest' =>
        exact ⟨(h.cell_visible a ha).2, (h'.cell_visible b hb).2, _, hrest, hrest'⟩
  lacks _ := by simp [Bindings.Lacks]

variable {h : m.Valid} {h' : m'.Valid} {v w : Value}

theorem showing_of_content (hv : m.Visible v) (hw : m'.Visible w)
    (hsame : m'.store.content w = m.store.content v) : (Likeness.showing h h').Like v w :=
  ⟨hv, hw, _, h.shows hv, hsame ▸ h'.shows hw⟩

/-- What is taken for each other goes on to show the same. -/
theorem content_of_showing (hlike : (Likeness.showing h h').Like v w) (hn : m.Evolves n)
    (hn' : m'.Evolves n') : n'.store.content w = n.store.content v := by
  obtain ⟨hv, hw, datum, hshows, hshows'⟩ := hlike
  rw [hn.content_eq h hv, hn'.content_eq h' hw, hshows.content_eq, hshows'.content_eq]

theorem Memory.ShowsAlike.agree (hshown : m.ShowsAlike m') :
    (Likeness.showing h h').Agree m m' := by
  refine ⟨h, h', .refl m, .refl m', ?_, (Likeness.extends_iff_of_nil rfl).mpr ?_⟩
  · rintro label label' ⟨-, -, datum, hname, hname'⟩
    have htext : label'.text = label.text := by
      cases hname
      generalize htext : label.text = text at hname'
      cases hname'
      rfl
    -- Two names of the same text are bound in both memories or in none.
    have hcalls := hshown.calls label.text
    have hseen : ∀ v, m.calledName label.text = some v → m.Visible v :=
      fun v hv => h.calledName_visible hv
    have hseen' : ∀ v, m'.calledName label.text = some v → m'.Visible v :=
      fun v hv => h'.calledName_visible hv
    rw [calledValue_symbol, calledValue_symbol, htext]
    unfold shownName at hcalls
    generalize m.calledName label.text = found at hcalls hseen
    generalize m'.calledName label.text = found' at hcalls hseen'
    cases found with
    | none =>
      cases found' with
      | none => exact .none
      | some w => exact absurd hcalls (by simp)
    | some v =>
      cases found' with
      | none => exact absurd hcalls (by simp)
      | some w =>
        exact .some (showing_of_content (hseen v rfl) (hseen' w rfl) (Option.some.inj hcalls))
  · have hglobals : List.Forall₂ (· = ·) m'.shownGlobals m.shownGlobals := by
      rw [List.forall₂_eq_eq_eq]
      exact hshown.globals
    unfold shownGlobals at hglobals
    rw [List.forall₂_map_left_iff, List.forall₂_map_right_iff] at hglobals
    have hseen' := (List.forall₂_and_left _ _).mpr
      ⟨fun _ hb => h'.visible_of_mem_globalBindings hb, hglobals⟩
    have hseen := (List.forall₂_and_left _ _).mpr
      ⟨fun _ hb => h.visible_of_mem_globalBindings hb, hseen'.flip⟩
    refine hseen.imp fun binding binding' hb => ?_
    obtain ⟨⟨hkey, hv⟩, ⟨hkey', hv'⟩, hsame⟩ := hb
    exact ⟨showing_of_content hkey hkey' (congrArg Prod.fst hsame),
      showing_of_content hv hv' (congrArg Prod.snd hsame)⟩

/-- What has come of two memories that show alike, and agrees, shows alike again. -/
theorem Memory.ShowsAlike.of_agree (hshown : m.ShowsAlike m')
    (hagree : (Likeness.showing h h').Agree n n') (hn : m.Evolves n) (hn' : m'.Evolves n') :
    n.ShowsAlike n' := by
  constructor
  case globals =>
    have hglobals := (Likeness.extends_iff_of_nil rfl).mp hagree.globals
    unfold shownGlobals
    rw [← List.forall₂_eq_eq_eq, List.forall₂_map_left_iff, List.forall₂_map_right_iff]
    exact hglobals.flip.imp fun _ _ hb =>
      Prod.ext (content_of_showing hb.1 hn hn') (content_of_showing hb.2 hn hn')
  case calls =>
    intro name
    have hname := hshown.calls name
    unfold shownName at hname ⊢
    rw [h.calledName_eq hn, h'.calledName_eq hn']
    have hkept : (m.calledName name).map n.store.content =
        (m.calledName name).map m.store.content :=
      Option.map_congr fun v hv => hn.content_eq h (h.calledName_visible hv)
    have hkept' : (m'.calledName name).map n'.store.content =
        (m'.calledName name).map m'.store.content :=
      Option.map_congr fun v hv => hn'.content_eq h' (h'.calledName_visible hv)
    rw [hkept, hkept', hname]

end Shown

/-- Two sessions that show alike, and are otherwise the same, evaluate what shows the same to what
shows the same, report the same, and show alike afterwards. -/
theorem Session.Valid.evaluate_showsAlike {s s' : Session} (h : s.Valid) (h' : s'.Valid)
    (hsettings : s'.settings = s.settings) (hshown : s.memory.ShowsAlike s'.memory) {x x' : Value}
    (hx : s.memory.Visible x) (hx' : s'.memory.Visible x')
    (hsame : s'.memory.store.content x' = s.memory.store.content x) :
    let ended := (evaluate x).run s
    let ended' := (evaluate x').run s'
    ended'.2.memory.store.content ended'.1 = ended.2.memory.store.content ended.1 ∧
      s'.reportsOf x' = s.reportsOf x ∧ ended.2.memory.ShowsAlike ended'.2.memory := by
  intro ended ended'
  have hagree : (Likeness.showing h.memory h'.memory).Agree s.memory s'.memory := hshown.agree
  have htruth : (Likeness.showing h.memory h'.memory).Like s.truth s'.truth := by
    rw [h.truth, h'.truth]
    exact ⟨trivial, trivial, _, .symbol _, .symbol _⟩
  obtain ⟨hvalue, hreports, hended, hevolves, hevolves'⟩ :=
    Likeness.evaluate_alike hagree htruth hsettings (showing_of_content hx hx' hsame)
  exact ⟨content_of_showing hvalue hevolves hevolves', hreports,
    hshown.of_agree hended hevolves hevolves'⟩

/-! ## Two frames made one -/

namespace Memory

/-- A frame that holds some bindings, in two new lists. -/
def framing (bindings : Bindings) : StateM Memory Frame := do
  let symbols ← making (Store.list (bindings.map Prod.fst))
  let values ← making (Store.list (bindings.map Prod.snd))
  return ⟨symbols, values⟩

/-- The memory with two adjacent frames replaced by one, that holds the bindings of the inner frame
followed by those of the outer one. -/
def merged (m : Memory) (above : List Frame) (inner outer : Frame) (below : List Frame) : Memory :=
  let (frame, m') := (framing (inner.bindings m.store ++ outer.bindings m.store)).run m
  m'.calling (above ++ frame :: below)

theorem Valid.framing {m : Memory} (h : m.Valid) {bindings : Bindings}
    (hbindings : ∀ binding ∈ bindings, m.Visible binding.1 ∧ m.Visible binding.2) :
    let framed := (Memory.framing bindings).run m
    framed.2.Valid ∧ m.Grows framed.2 ∧
      (framed.2.Visible framed.1.symbols ∧ framed.2.Visible framed.1.values) ∧
      framed.1.bindings framed.2.store = bindings := by
  have hkeys : ∀ key ∈ bindings.map Prod.fst, m.Visible key :=
    List.forall_mem_map.mpr fun binding hb => (hbindings binding hb).1
  have hsymbols := h.list hkeys
  have hbound : ∀ v ∈ bindings.map Prod.snd,
      Visible { m with store := ((Store.list (bindings.map Prod.fst)).run m.store).2 } v :=
    List.forall_mem_map.mpr fun binding hb => hsymbols.evolves.visible (hbindings binding hb).2
  have hvalues := hsymbols.valid.list hbound
  refine ⟨hvalues.valid, (grows_list _ _).trans (grows_list _ _),
    ⟨hvalues.evolves.visible hsymbols.visible, hvalues.visible⟩, ?_⟩
  have hkept := hvalues.evolves.toSpares.elements_eq hsymbols.valid hsymbols.visible
  calc Frame.bindings _ _
      = (bindings.map Prod.fst).zip (bindings.map Prod.snd) :=
        congrArg₂ List.zip (hkept.trans (Store.elements_list _ _)) (Store.elements_list _ _)
    _ = bindings := by rw [List.zip_map', List.map_id']

section Merged

variable {m : Memory} {above below : List Frame} {inner outer : Frame}
  (h : m.Valid) (hcalls : m.environment.calls = above ++ inner :: outer :: below)
include h hcalls

/-- A frame that binds what two adjacent ones do, in order, may stand in their place. -/
theorem Valid.calledValue_joined {m' : Memory} (hm : m.Spares m') {frame : Frame}
    (hframe : frame.bindings m'.store = inner.bindings m.store ++ outer.bindings m.store)
    (key : Value) :
    (m'.calling (above ++ frame :: below)).calledValue key = m.calledValue key := by
  have hsame : ∀ frames : List Frame, (∀ other ∈ frames, other ∈ m.environment.calls) →
      frames.map (fun other => other.bindings m'.store) =
        frames.map fun other => other.bindings m.store := by
    intro frames hframes
    exact List.map_congr_left fun other hother => h.bindings_eq hm (hframes other hother)
  have habove := hsame above fun other hother => by simp [hcalls, hother]
  have hbelow := hsame below fun other hother => by simp [hcalls, hother]
  have hjoined : Bindings.value? (frame.bindings m'.store) key =
      (Bindings.value? (inner.bindings m.store) key).or
        (Bindings.value? (outer.bindings m.store) key) := by
    rw [hframe, Bindings.value?_append]
  show ((above ++ frame :: below).map fun other => other.bindings m'.store).findSome? _ =
    (m.environment.calls.map fun other => other.bindings m.store).findSome? _
  simp only [hcalls, List.map_append, List.map_cons, habove, hbelow, List.findSome?_append,
    List.findSome?_cons, hjoined]
  cases Bindings.value? (inner.bindings m.store) key <;> rfl

/-- To merge two adjacent frames changes nothing that can be looked up. -/
theorem Valid.merged :
    (m.merged above inner outer below).Valid ∧ m.BindsAlike (m.merged above inner outer below) ∧
      (∀ v, m.Visible v → m.Shares (m.merged above inner outer below) v) ∧
      ∃ frame, (m.merged above inner outer below).environment.calls = above ++ frame :: below ∧
        frame.bindings (m.merged above inner outer below).store =
          inner.bindings m.store ++ outer.bindings m.store := by
  have hbound : ∀ binding ∈ inner.bindings m.store ++ outer.bindings m.store,
      m.Visible binding.1 ∧ m.Visible binding.2 := by
    intro binding hb
    have hbinds : m.Binds binding.1 ∧ m.Binds binding.2 := by
      rcases List.mem_append.mp hb with hb | hb
      · exact binds_of_mem (by simp [hcalls]) hb
      · exact binds_of_mem (by simp [hcalls]) hb
    exact hbinds.imp h.visible_of_binds h.visible_of_binds
  obtain ⟨hvalid, hgrows, hlists, hbindings⟩ := h.framing hbound
  have hevolves := hgrows.evolves h
  have hframes : ∀ frame ∈ m.environment.calls,
      Visible _ frame.symbols ∧ Visible _ frame.values := fun frame hframe =>
    ⟨hevolves.visible (h.calls frame hframe).1, hevolves.visible (h.calls frame hframe).2⟩
  rw [hcalls, List.forall_mem_append, List.forall_mem_cons, List.forall_mem_cons] at hframes
  obtain ⟨habove, -, -, hbelow⟩ := hframes
  refine ⟨hvalid.calling (List.forall_mem_append.mpr ⟨habove, ?_⟩),
    h.bindsAlike_calling hgrows fun name => ?_, fun v hv => h.shares_calling hgrows _ hv, _, rfl,
    hbindings⟩
  · exact List.forall_mem_cons.mpr ⟨hlists, hbelow⟩
  · have hcalled := h.calledValue_joined hcalls hevolves.toSpares hbindings (.symbol ⟨0, name⟩)
    rwa [calledValue_symbol, calledValue_symbol] at hcalled

end Merged

end Memory

/-! ## The call stack -/

/-- The calls going on are seen only by what they bind names to.

Two sessions with the same settings may differ in the frames that they have for calls, in whatever
way.  If they bind alike, what they share comes to the same value in both, with the same reports,
and they bind alike afterwards.  If they only show alike, which they may do with no cells in common,
the same holds of what values show.  To merge two adjacent frames into one is a case of the
former. -/
theorem evaluate_sees_calls_by_name {s s' : Session} (h : s.Reachable) (h' : s'.Reachable)
    (hsettings : s'.settings = s.settings) :
    (s.memory.BindsAlike s'.memory → ∀ x, s.memory.Shares s'.memory x →
      let ended := (evaluate x).run s
      let ended' := (evaluate x).run s'
      ended'.1 = ended.1 ∧ s'.reportsOf x = s.reportsOf x ∧
        ended.2.memory.BindsAlike ended'.2.memory ∧
        ended.2.memory.Shares ended'.2.memory ended.1) ∧
    (s.memory.ShowsAlike s'.memory → ∀ x x', s.memory.Visible x → s'.memory.Visible x' →
      s'.memory.store.content x' = s.memory.store.content x →
      let ended := (evaluate x).run s
      let ended' := (evaluate x').run s'
      ended'.2.memory.store.content ended'.1 = ended.2.memory.store.content ended.1 ∧
        s'.reportsOf x' = s.reportsOf x ∧ ended.2.memory.ShowsAlike ended'.2.memory) ∧
    (∀ above inner outer below,
      s.memory.environment.calls = above ++ inner :: outer :: below →
      let m := s.memory.merged above inner outer below
      (∃ frame, m.environment.calls = above ++ frame :: below ∧
        frame.bindings m.store =
          inner.bindings s.memory.store ++ outer.bindings s.memory.store) ∧
      ∀ x, s.memory.Visible x →
        let ended := (evaluate x).run s
        let ended' := (evaluate x).run { s with memory := m }
        ended'.1 = ended.1 ∧ Session.reportsOf { s with memory := m } x = s.reportsOf x ∧
          ended.2.memory.BindsAlike ended'.2.memory ∧
          ended.2.memory.Shares ended'.2.memory ended.1) := by
  have hvalid := h.valid
  refine ⟨fun hbinds x hx => hvalid.evaluate_bindsAlike h'.valid hsettings hbinds hx,
    fun hshown x x' hx hx' hsame =>
      hvalid.evaluate_showsAlike h'.valid hsettings hshown hx hx' hsame, ?_⟩
  intro above inner outer below hcalls m
  obtain ⟨hmerged, hbinds, hshares, hframe⟩ := hvalid.memory.merged hcalls
  refine ⟨hframe, fun x hx => ?_⟩
  have hvalid' : Session.Valid { s with memory := m } := ⟨hmerged, hvalid.truth, hvalid.resting⟩
  exact hvalid.evaluate_bindsAlike hvalid' rfl hbinds (hshares x hx)

/-- A session that holds `(+ x y)` in cell 4, `(x y)` in cell 6 and `(1 2)` in cell 8. -/
def Session.beforeCall : Session :=
  Session.start {}
    |>.after (.load (.ofList [.symbol "+", .symbol "x", .symbol "y"]))
    |>.after (.load (.ofList [.symbol "x", .symbol "y"]))
    |>.after (.load (.ofList [.number (.integer 1), .number (.integer 2)]))

/-- The same session in a call that binds `x` to 1 and `y` to 2. -/
def Session.inOneCall : Session := Session.beforeCall.after (.push (.pair 6) (.pair 8))

/-- A session in two calls.  The inner one binds `x` to 1, and the outer one `x` to 9 and `y` to 2.
It holds `(+ x y)` in cell 10. -/
def Session.inTwoCalls : Session :=
  Session.start {}
    |>.after (.load (.ofList [.symbol "x", .symbol "y"]))
    |>.after (.load (.ofList [.number (.integer 9), .number (.integer 2)]))
    |>.after (.push (.pair 3) (.pair 5))
    |>.after (.load (.ofList [.symbol "x"]))
    |>.after (.load (.ofList [.number (.integer 1)]))
    |>.after (.push (.pair 6) (.pair 7))
    |>.after (.load (.ofList [.symbol "+", .symbol "x", .symbol "y"]))

theorem reachable_inOneCall : Session.inOneCall.Reachable := by
  unfold Session.inOneCall Session.beforeCall
  refine .after (.after (.after (.after (.start _) _ ?_) _ ?_) _ ?_) _ ?_
  · trivial
  · trivial
  · trivial
  · exact ⟨by decide +kernel, by decide +kernel⟩

theorem reachable_inTwoCalls : Session.inTwoCalls.Reachable := by
  unfold Session.inTwoCalls
  refine .after (.after (.after (.after (.after (.after (.after (.start _)
    _ ?_) _ ?_) _ ?_) _ ?_) _ ?_) _ ?_) _ ?_
  · trivial
  · trivial
  · exact ⟨by decide +kernel, by decide +kernel⟩
  · trivial
  · trivial
  · exact ⟨by decide +kernel, by decide +kernel⟩
  · trivial

theorem showsAlike_inTwoCalls :
    Session.inOneCall.memory.ShowsAlike Session.inTwoCalls.memory := by
  refine ⟨by decide +kernel, fun name => ?_⟩
  by_cases hx : name = "x"
  · subst hx
    decide +kernel
  by_cases hy : name = "y"
  · subst hy
    decide +kernel
  -- No call of either session binds another name.
  have hone : Session.inOneCall.memory.scopes.calls =
      [[(.symbol ⟨4, "x"⟩, .number (.integer 1)), (.symbol ⟨5, "y"⟩, .number (.integer 2))]] := by
    decide +kernel
  have htwo : Session.inTwoCalls.memory.scopes.calls =
      [[(.symbol ⟨3, "x"⟩, .number (.integer 1))],
        [(.symbol ⟨1, "x"⟩, .number (.integer 9)), (.symbol ⟨2, "y"⟩, .number (.integer 2))]] := by
    decide +kernel
  unfold shownName
  rw [← calledValue_symbol _ ⟨0, name⟩, ← calledValue_symbol _ ⟨0, name⟩, calledValue, calledValue,
    hone, htwo]
  simp [Bindings.value?, Value.equalAtoms, Ne.symm hx, Ne.symm hy]

/-- The sum is the same in one call and in two, where the one call is entered a second time, and
where the two are made one. -/
theorem evaluate_sees_calls_by_name_sum :
    let one := Session.inOneCall
    let two := Session.inTwoCalls
    let twice := one.after (.push (.pair 6) (.pair 8))
    let merged : Session :=
      { two with memory := two.memory.merged [] ⟨.pair 6, .pair 7⟩ ⟨.pair 3, .pair 5⟩ [] }
    (one.Reachable ∧ two.Reachable ∧ two.settings = one.settings ∧
      one.memory.ShowsAlike two.memory ∧
      ((evaluate (.pair 4)).run one).1 = .number (.integer 3) ∧
      two.memory.store.content (.pair 10) = one.memory.store.content (.pair 4) ∧
      ((evaluate (.pair 10)).run two).2.memory.store.content ((evaluate (.pair 10)).run two).1 =
        ((evaluate (.pair 4)).run one).2.memory.store.content ((evaluate (.pair 4)).run one).1) ∧
    (twice.Reachable ∧ twice.settings = one.settings ∧ one.memory.BindsAlike twice.memory ∧
      ((evaluate (.pair 4)).run twice).1 = ((evaluate (.pair 4)).run one).1) ∧
    (two.memory.environment.calls = [] ++ ⟨.pair 6, .pair 7⟩ :: ⟨.pair 3, .pair 5⟩ :: [] ∧
      ((evaluate (.pair 10)).run merged).1 = ((evaluate (.pair 10)).run two).1) := by
  intro one two twice merged
  have hone : one.Reachable := reachable_inOneCall
  have htwo : two.Reachable := reachable_inTwoCalls
  have htwice : twice.Reachable := .after hone _ ⟨by decide +kernel, by decide +kernel⟩
  have hseen : one.memory.Visible (.pair 4) := by decide +kernel
  have hseen' : two.memory.Visible (.pair 10) := by decide +kernel
  have hsame : two.memory.store.content (.pair 10) = one.memory.store.content (.pair 4) := by
    decide +kernel
  have hcalls : two.memory.environment.calls =
      [] ++ ⟨.pair 6, .pair 7⟩ :: ⟨.pair 3, .pair 5⟩ :: [] := by
    decide +kernel
  have hpushed : one.memory = Session.beforeCall.memory.push (.pair 6) (.pair 8) := rfl
  have hbinds : one.memory.BindsAlike twice.memory :=
    Memory.Valid.bindsAlike_twice (hpushed ▸ hone.valid.memory)
  have hshares : one.memory.Shares twice.memory (.pair 4) :=
    hone.valid.memory.shares (fun _ ha => ⟨ha, rfl⟩) hseen
  have hsettings : two.settings = one.settings := by decide +kernel
  have hvalue : ((evaluate (.pair 4)).run one).1 = .number (.integer 3) := by decide +kernel
  have hshown := (evaluate_sees_calls_by_name hone htwo hsettings).2.1 showsAlike_inTwoCalls
    (.pair 4) (.pair 10) hseen hseen' hsame
  have hdoubled := (evaluate_sees_calls_by_name hone htwice rfl).1 hbinds (.pair 4) hshares
  have hmerged := (evaluate_sees_calls_by_name htwo htwo rfl).2.2 [] _ _ [] hcalls
  exact ⟨⟨hone, htwo, hsettings, showsAlike_inTwoCalls, hvalue, hsame, hshown.1⟩,
    ⟨htwice, rfl, hbinds, hdoubled.1⟩, hcalls, (hmerged.2 (.pair 10) hseen').1⟩

end DynLisp
