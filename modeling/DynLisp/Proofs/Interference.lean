/-
  Proofs/Interference.lean --- names that a program does not use.

  WHAT THIS FILE IS FOR.  If a name occurs neither in an expression nor in what the
  frames bind, no evaluation of the expression comes to it.  To bind the name globally
  before makes no difference then, whatever it is bound to: the value and the reports are
  the same, and the bindings are, with one more among them
  (`evaluate_spares_unused_binding`).

  TRUE.  The one name that evaluation brings up by itself is that of the symbol for true.
  It is a key of the global frame in every session (`Session.Reachable.truth_mem_globalKeys`),
  so that a name which is none of the keys is another one.
-/
import DynLisp.Proofs.Sharing

set_option autoImplicit false

namespace DynLisp

open Evaluation Memory

/-! ## Names that occur -/

/-- One can come from the value to a symbol of the name. -/
def Memory.Mentions (m : Memory) (v : Value) (name : String) : Prop :=
  ∃ w, m.store.Reaches v w ∧ w.isSymbolNamed name = true

/-- No cell has a symbol of the name in it. -/
def Memory.Free (m : Memory) (name : String) : Prop :=
  ∀ a < m.store.size, (m.store.cell a).first.isSymbolNamed name = false ∧
    (m.store.cell a).rest.isSymbolNamed name = false

instance (m : Memory) (name : String) : Decidable (m.Free name) := by
  unfold Memory.Free
  infer_instance

namespace Memory.Free

variable {m : Memory} {name : String} (h : m.Free name)
include h

theorem halves (a : Nat) : (m.store.cell a).first.isSymbolNamed name = false ∧
    (m.store.cell a).rest.isSymbolNamed name = false := by
  by_cases ha : a < m.store.size
  · exact h a ha
  · have hempty : m.store.cell a = ⟨.nil, .nil⟩ := by
      rw [Store.cell, Array.getElem?_eq_none (Nat.not_lt.mp ha)]
      rfl
    rw [hempty]
    exact ⟨rfl, rfl⟩

/-- A name that is in no cell is mentioned by symbols alone. -/
theorem not_mentions {v : Value} (hv : v.isSymbolNamed name = false) : ¬ m.Mentions v name := by
  rintro ⟨w, hw, hnamed⟩
  have hunnamed : w.isSymbolNamed name = false :=
    hw.closed (P := (·.isSymbolNamed name = false)) hv (fun a _ => (h.halves a).1)
      fun a _ => (h.halves a).2
  rw [hunnamed] at hnamed
  exact Bool.false_ne_true hnamed

theorem not_mentions_of_binds {v : Value} (hv : m.Binds v) : ¬ m.Mentions v name := by
  obtain ⟨frame, -, binding, hbinding, hv⟩ := hv
  obtain ⟨hkey, hbound⟩ := List.of_mem_zip hbinding
  apply h.not_mentions
  rcases hv with rfl | rfl
  · obtain ⟨a, -, heq⟩ := List.mem_map.mp hkey
    rw [← heq]
    exact (h.halves a).1
  · obtain ⟨a, -, heq⟩ := List.mem_map.mp hbound
    rw [← heq]
    exact (h.halves a).1

end Memory.Free

/-! ## The key of true -/

namespace Session

/-- A request leaves the global keys there, and puts others in front at most. -/
theorem Valid.globalKeys_suffix_after {s : Session} (h : s.Valid) {request : Request}
    (hallowed : request.Allowed s.memory) :
    s.memory.globalKeys <:+ (s.after request).memory.globalKeys := by
  have hm := h.memory
  cases request with
  | evaluate expression => exact (h.evaluate_yields hallowed).evolves.keys
  | read form => exact (h.read_keeps form).2.evolves.keys
  | takeReported | push | pop => exact List.suffix_rfl
  | load datum => exact (hm.load datum).evolves.keys
  | cons first rest => exact (hm.appended hallowed.1 hallowed.2).evolves.keys
  | list items => exact (hm.list hallowed).evolves.keys
  | setFirst address v =>
    have hkeys := hm.globalKeys_update hallowed.1 fun cell => { cell with first := v }
    exact ⟨[], hkeys.symm⟩
  | setRest address v =>
    have hkeys := hm.globalKeys_update hallowed.1 fun cell => { cell with rest := v }
    exact ⟨[], hkeys.symm⟩
  | define key v =>
    show _ <:+ ((inMemory (Memory.define key v)).run s).2.memory.globalKeys
    rw [run_inMemory_define]
    exact (hm.defined hallowed.1 hallowed.2).evolves.keys

theorem Reachable.truth_mem_globalKeys {s : Session} (h : s.Reachable) :
    s.truth ∈ s.memory.globalKeys := by
  induction h with
  | start settings =>
    have hkeys : (Session.start settings).memory.globalKeys = [.symbol ⟨0, truthName⟩] := rfl
    rw [hkeys]
    exact List.mem_singleton_self _
  | @after s hbefore request hallowed ih =>
    have hvalid := hbefore.valid
    rw [(hvalid.after hallowed).valid.truth, ← hvalid.truth]
    exact (hvalid.globalKeys_suffix_after hallowed).subset ih

/-- True is bound, as a key. -/
theorem Reachable.binds_truth {s : Session} (h : s.Reachable) : s.memory.Binds s.truth := by
  have hkey := h.truth_mem_globalKeys
  rw [← h.valid.memory.map_fst_globalBindings] at hkey
  obtain ⟨binding, hbinding, heq⟩ := List.mem_map.mp hkey
  exact heq ▸ (binds_of_mem_globalBindings hbinding).1

end Session

/-! ## One more binding -/

section Unused

variable {m : Memory} {label : Label} {v : Value}

theorem lacks_of_unnamed {w : Value} (hw : w.isSymbolNamed label.text = false) :
    Bindings.Lacks [(.symbol label, v)] w := by
  intro binding hbinding
  rw [List.mem_singleton.mp hbinding]
  cases w with
  | symbol other =>
    have hne : other.text ≠ label.text := by simpa [Value.isSymbolNamed, Value.symbolName?] using hw
    exact decide_eq_false hne.symm
  | nil | number | string | pair => rfl

theorem unnamed_of_not_mentions {w : Value} (hw : ¬ m.Mentions w label.text) :
    w.isSymbolNamed label.text = false :=
  Bool.eq_false_iff.mpr fun hnamed => hw ⟨w, .here, hnamed⟩

theorem lacks_of_not_mentions (hunused : ∀ w, m.Binds w → ¬ m.Mentions w label.text) :
    Bindings.Lacks m.globalBindings (.symbol label) := by
  intro binding hbinding
  have hkey := unnamed_of_not_mentions
    (hunused binding.1 (binds_of_mem_globalBindings hbinding).1)
  rw [Value.equalAtoms_comm]
  exact lacks_of_unnamed (v := .nil) hkey (.symbol label, .nil) (List.mem_singleton_self _)

end Unused

/-- The memory with one more name, and the memory without it. -/
def Likeness.besides (m m' : Memory) (label : Label) (v : Value) : Likeness m m' :=
  sharing m m' [(.symbol label, v)]
    fun _ hb => ⟨label, congrArg Prod.fst (List.mem_singleton.mp hb)⟩

section Besides

variable {m : Memory} {label : Label} {v : Value} (h : m.Valid) (hv : m.Visible v)
include h hv

theorem common_of_not_mentions {w : Value} (hw : m.Visible w)
    (hunused : ¬ m.Mentions w label.text) :
    Likeness.Common m (m.defined (.symbol label) v) [(.symbol label, v)] w := by
  have hkey : m.Visible (.symbol label) := trivial
  have hdefined := h.defined hkey hv
  refine ⟨h.shares (fun a ha => hdefined.evolves.cells a ha) hw, fun u hu => ?_⟩
  exact lacks_of_unnamed (Bool.eq_false_iff.mpr fun hnamed => hunused ⟨u, hu, hnamed⟩)

/-- To define a name that is not used leaves a memory that agrees. -/
theorem agree_of_not_mentions (hunused : ∀ w, m.Binds w → ¬ m.Mentions w label.text) :
    (Likeness.besides m (m.defined (.symbol label) v) label v).Agree m
      (m.defined (.symbol label) v) := by
  have hkey : m.Visible (.symbol label) := trivial
  have hdefined := h.defined hkey hv
  have hcommon : ∀ w, m.Binds w →
      Likeness.Common m (m.defined (.symbol label) v) [(.symbol label, v)] w :=
    fun w hw => common_of_not_mentions h hv (h.visible_of_binds hw) (hunused w hw)
  refine ⟨h, hdefined.valid, .refl _, .refl _, ?_, ?_⟩
  · rintro name _ ⟨⟨⟩, -⟩
    rw [h.calledValue_eq hdefined.evolves]
    refine Likeness.relates_self fun w hw => ?_
    have hlookup : m.lookup (.symbol name) = some w := by
      rw [lookup_eq_or, hw]
      rfl
    exact hcommon w (binds_of_lookup hlookup)
  · have hglobals := h.globalBindings_defined (.symbol label) v
    rw [(lacks_of_not_mentions hunused).assign_eq] at hglobals
    refine ⟨[], m.globalBindings, [], m.globalBindings, rfl, hglobals, .nil, ?_⟩
    refine Likeness.likeBinding_self fun binding hb => ?_
    obtain ⟨hkey, hbound⟩ := binds_of_mem_globalBindings hb
    exact ⟨hcommon _ hkey, hcommon _ hbound⟩

end Besides

/-- To bind a name that is used nowhere makes no difference to evaluation. -/
theorem evaluate_spares_unused_binding {s : Session} (h : s.Reachable) {x v : Value} {label : Label}
    (hx : s.memory.Visible x) (hv : s.memory.Visible v)
    (hexpression : ¬ s.memory.Mentions x label.text)
    (hbound : ∀ w, s.memory.Binds w → ¬ s.memory.Mentions w label.text) :
    let s' := s.after (.define (.symbol label) v)
    let ended := (evaluate x).run s
    let ended' := (evaluate x).run s'
    ended'.1 = ended.1 ∧ s'.reportsOf x = s.reportsOf x ∧
      (∃ newer older, ended.2.memory.globalBindings = newer ++ older ∧
        ended'.2.memory.globalBindings = newer ++ (.symbol label, v) :: older) ∧
      ended'.2.memory.environment.calls = ended.2.memory.environment.calls ∧
      ended'.2.memory.scopes.calls = ended.2.memory.scopes.calls ∧
      ∀ w, (w = ended.1 ∨ ended.2.memory.Binds w) →
        ended.2.memory.Shares ended'.2.memory w := by
  intro s' ended ended'
  have hm := h.valid.memory
  have hmemory : s'.memory = s.memory.defined (.symbol label) v :=
    congrArg (fun ended => Session.memory ended.2) (run_inMemory_define s (.symbol label) v)
  have hkey : s.memory.Visible (.symbol label) := trivial
  have hevolves := (hm.defined hkey hv).evolves
  have hagree := agree_of_not_mentions hm hv hbound
  have hcommon : ∀ w, s.memory.Binds w → Likeness.Common s.memory _ [(.symbol label, v)] w :=
    fun w hw => common_of_not_mentions hm hv (hm.visible_of_binds hw) (hbound w hw)
  have hx' := common_of_not_mentions hm hv hx hexpression
  rw [← hmemory] at hevolves hagree hcommon hx'
  -- True is a key, so that it is not the name either.
  have htruth := hcommon s.truth h.binds_truth
  obtain ⟨hvalue, hreports, hended, hn, hn'⟩ :=
    Likeness.evaluate_alike hagree ⟨rfl, htruth⟩ rfl (x := x) ⟨rfl, hx'⟩
  obtain ⟨newer, older, newer', older', hglobals, hglobals', hnewer, holder⟩ := hended.globals
  obtain ⟨rfl, hnew⟩ := Likeness.eq_of_likeBinding hnewer
  obtain ⟨rfl, hold⟩ := Likeness.eq_of_likeBinding holder
  have hcalls := hm.scopes_calls_eq hn
  have hcalls' := hagree.valid'.scopes_calls_eq hn'
  refine ⟨hvalue.1.symm, hreports, ⟨_, _, hglobals, hglobals'⟩,
    hn'.calls.trans (hevolves.calls.trans hn.calls.symm), ?_, ?_⟩
  · rw [hcalls, hcalls', hm.scopes_calls_eq hevolves]
  · rintro w (rfl | hw)
    · exact hvalue.2.1.spares hn.toSpares hn'.toSpares
    · have hshares : s.memory.Shares s'.memory w := by
        rcases hm.binds_of_evolves hn hw with hw | ⟨binding, hbinding, hw⟩
        · exact (hcommon w hw).1
        · rw [hglobals] at hbinding
          have hboth := (List.mem_append.mp hbinding).elim (hnew binding) (hold binding)
          rcases hw with rfl | rfl
          · exact hboth.1.1
          · exact hboth.2.1
      exact hshares.spares hn.toSpares hn'.toSpares

/-- The call binds `y` in front of `z`, which is there and is not used. -/
theorem evaluate_spares_unused_binding_call :
    let s := Session.holdingCall
    let s' := s.after (.define (.symbol ⟨9, "z"⟩) (.number (.integer 7)))
    let ended := (evaluate (.pair 14)).run s
    let ended' := (evaluate (.pair 14)).run s'
    s.Reachable ∧ s.memory.Visible (.pair 14) ∧ ¬ s.memory.Mentions (.pair 14) "z" ∧
      (∀ w, s.memory.Binds w → ¬ s.memory.Mentions w "z") ∧ ended.1 = .pair 10 ∧
      ended'.1 = ended.1 ∧ s'.reportsOf (.pair 14) = s.reportsOf (.pair 14) ∧
      ended.2.memory.globalBindings.map Prod.snd = [.pair 10, s.truth] ∧
      ended'.2.memory.globalBindings.map Prod.snd =
        [.pair 10, .number (.integer 7), s.truth] := by
  intro s s' ended ended'
  have hreachable : s.Reachable := .after (.start {}) _ trivial
  have hvisible : s.memory.Visible (.pair 14) := by decide +kernel
  have hfree : s.memory.Free "z" := by decide +kernel
  have hexpression : ¬ s.memory.Mentions (.pair 14) "z" := hfree.not_mentions rfl
  have hbound : ∀ w, s.memory.Binds w → ¬ s.memory.Mentions w "z" :=
    fun w hw => hfree.not_mentions_of_binds hw
  have hv : s.memory.Visible (.number (.integer 7)) := trivial
  have hspares := @evaluate_spares_unused_binding s hreachable (.pair 14) (.number (.integer 7))
    ⟨9, "z"⟩ hvisible hv hexpression hbound
  exact ⟨hreachable, hvisible, hexpression, hbound, by decide +kernel, hspares.1, hspares.2.1,
    by decide +kernel, by decide +kernel⟩

end DynLisp
