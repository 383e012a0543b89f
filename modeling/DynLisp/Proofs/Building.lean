/-
  Proofs/Building.lean --- what a builder makes of the values that it is given.

  WHAT THIS FILE IS FOR.  A builder knows the first and the last of the cells that it has
  made, and nothing else of its list.  `Builder.Holds` ties the two to the chain of all of
  them.  It is kept when the builder is given one more value (`Holds.push`), and when
  anything happens to the cells of others in between (`Holds.congr`).  So a builder finishes
  with a list of the values it was given, and spoils nothing that others have.

  THE WAY BACK.  A list made of the elements of a value is a copy of its chain that ends in
  the empty list, so the two are equal exactly if the chain does too (`builder_correct`).
  The elements themselves are one and the same in both, so that it does not matter what
  they are, or what they share.
-/
import DynLisp.Proofs.Equality

set_option autoImplicit false

namespace DynLisp.Store

/-! ## Changed ends of cells -/

section SetRest

variable (s : Store) (a : Nat) (v : Value)

@[simp] theorem size_setRest : (s.setRest a v).size = s.size := size_update s a _

variable {s a}

theorem cell_setRest_of_ne {b : Nat} (h : b ≠ a) : (s.setRest a v).cell b = s.cell b :=
  cell_update_of_ne h _

theorem cell_setRest_self (ha : a < s.size) : (s.setRest a v).cell a = ⟨(s.cell a).first, v⟩ :=
  cell_update_self ha _

end SetRest

theorem first_setRest {s : Store} {a : Nat} (ha : a < s.size) (v : Value) (b : Nat) :
    ((s.setRest a v).cell b).first = (s.cell b).first := by
  by_cases hb : b = a
  · rw [hb, cell_setRest_self v ha]
  · rw [cell_setRest_of_ne v hb]

/-- If the last cell of a chain is made to lead to another chain, the two become one. -/
theorem Chain.setRest {s : Store} {v last w last' : Value} {before after : List Nat} {a : Nat}
    (h : s.Chain v (before ++ [a]) last) (h' : (s.setRest a w).Chain w after last') :
    (s.setRest a w).Chain v (before ++ a :: after) last' := by
  induction before generalizing v with
  | nil =>
    cases h with
    | link ha hrest =>
      refine .link (by simpa using ha) ?_
      rw [cell_setRest_self w ha]
      exact h'
  | cons b before ih =>
    have hne : b ≠ a := by
      rintro rfl
      exact (List.nodup_cons.mp h.nodup).1 (by simp)
    cases h with
    | link hb hrest =>
      refine .link (by simpa using hb) ?_
      rw [cell_setRest_of_ne w hne]
      exact ih hrest

/-! ## What a builder holds -/

namespace Builder

/-- The address of the last cell so far. -/
def last? : Builder → Option Nat
  | empty => none
  | chain _ last => some last

/-- The builder has made a list of these values, out of cells of its own. -/
structure Holds (builder : Builder) (s : Store) (own : List Nat) (items : List Value) : Prop where
  chain : s.Chain builder.finish own .nil
  firsts : own.map (fun a => (s.cell a).first) = items
  last_eq : own.getLast? = builder.last?

/-- The list that the builder finishes with is a proper one of these values, and consists of these
cells. -/
structure Finished (builder : Builder) (s : Store) (own : List Nat) (items : List Value) :
    Prop where
  isProperList : s.isProperList builder.finish = true
  elements : s.elements builder.finish = items
  chainLength : s.chainLength builder.finish = items.length
  links : s.links builder.finish = own
  isEmpty : builder.isEmpty = true ↔ items = []
  finish_nil : builder.finish = .nil ↔ items = []

theorem size_push (builder : Builder) (s : Store) (v : Value) :
    ((builder.push v).run s).2.size = s.size + 1 := by
  cases builder with
  | empty => exact size_appended s v .nil
  | chain head last => exact (size_setRest _ _ _).trans (size_appended s v .nil)

/-- The only cell that is changed is the last one of the builder's own. -/
theorem cell_push {builder : Builder} {s : Store} {a : Nat} (ha : a < s.size)
    (hlast : builder.last? ≠ some a) (v : Value) :
    ((builder.push v).run s).2.cell a = s.cell a := by
  cases builder with
  | empty => exact cell_appended_of_lt ha v .nil
  | chain head last =>
    have hne : a ≠ last := fun heq => hlast (congrArg some heq.symm)
    exact (cell_setRest_of_ne _ hne).trans (cell_appended_of_lt ha v .nil)

namespace Holds

variable {builder : Builder} {s s' : Store} {own : List Nat} {items : List Value}

theorem empty (s : Store) : Builder.empty.Holds s [] [] := ⟨.stop nofun, rfl, rfl⟩

/-- What happens to the cells of others is nothing to a builder. -/
theorem congr (h : builder.Holds s own items) (hsize : s.size ≤ s'.size)
    (hown : ∀ a ∈ own, s'.cell a = s.cell a) : builder.Holds s' own items where
  chain := h.chain.congr fun a ha =>
    ⟨Nat.lt_of_lt_of_le (h.chain.lt_size a ha) hsize, congrArg Cell.rest (hown a ha)⟩
  firsts := by
    rw [← h.firsts]
    exact List.map_congr_left fun a ha => congrArg Cell.first (hown a ha)
  last_eq := h.last_eq

theorem push (h : builder.Holds s own items) (v : Value) :
    ((builder.push v).run s).1.Holds ((builder.push v).run s).2 (own ++ [s.size])
      (items ++ [v]) := by
  have hlt : s.size < (s.appended v .nil).size := by simp
  cases builder with
  | empty =>
    obtain rfl : own = [] := List.getLast?_eq_none_iff.mp h.last_eq
    obtain rfl : [] = items := h.firsts
    have hrun : (Builder.empty.push v).run s = (.chain s.size s.size, s.appended v .nil) := rfl
    rw [hrun]
    refine ⟨.link hlt ?_, by simp, rfl⟩
    rw [cell_appended_size]
    exact .stop nofun
  | chain head last =>
    obtain ⟨before, rfl⟩ := List.getLast?_eq_some_iff.mp h.last_eq
    have hrun : ((Builder.chain head last).push v).run s =
        (.chain head s.size, (s.appended v .nil).setRest last (.pair s.size)) := rfl
    have hlast : last < s.size := h.chain.lt_size last (by simp)
    have hgrown : (Builder.chain head last).Holds (s.appended v .nil) (before ++ [last]) items :=
      h.congr (by simp) fun a ha => cell_appended_of_lt (h.chain.lt_size a ha) v .nil
    rw [hrun]
    refine ⟨?_, ?_, by simp [last?]⟩
    · rw [List.append_assoc]
      refine hgrown.chain.setRest (.link (by simp) ?_)
      rw [cell_setRest_of_ne _ (Nat.ne_of_gt hlast), cell_appended_size]
      exact .stop nofun
    · simp only [first_setRest (Nat.lt_trans hlast hlt)]
      rw [List.map_append, hgrown.firsts]
      simp

theorem finished (h : builder.Holds s own items) : builder.Finished s own items := by
  have hlength : own.length = items.length := by rw [← h.firsts, List.length_map]
  have hitems : items = [] ↔ own = [] := by
    rw [← List.length_eq_zero_iff, ← hlength, List.length_eq_zero_iff]
  have hempty : own = [] ↔ builder.last? = none := by
    rw [← h.last_eq, List.getLast?_eq_none_iff]
  constructor
  case isProperList => simp [Store.isProperList, h.chain.tail_eq]
  case elements => rw [h.chain.elements_eq, h.firsts]
  case chainLength => rw [Store.chainLength, h.chain.links_eq, hlength]
  case links => exact h.chain.links_eq
  case isEmpty =>
    rw [hitems, hempty]
    cases builder <;> simp [Builder.isEmpty, last?]
  case finish_nil =>
    rw [hitems, hempty]
    cases builder <;> simp [Builder.finish, last?]

end Holds

end Builder

/-! ## Building -/

/-- From some store on, a builder has been given these values, and for each it has made a cell of
its own.  Between two of them anything may have happened to the cells of others.  Nobody can have
changed its own ones, because it hands none of them out before it finishes. -/
inductive Building (start : Store) : List Value → List Nat → Builder → Store → Prop where
  | begin : Building start [] [] .empty start
  | push {items : List Value} {own : List Nat} {builder : Builder} {s : Store}
      (h : Building start items own builder s) (v : Value) :
      Building start (items ++ [v]) (own ++ [s.size]) ((builder.push v).run s).1
        ((builder.push v).run s).2
  | meanwhile {items : List Value} {own : List Nat} {builder : Builder} {s s' : Store}
      (h : Building start items own builder s) (hsize : s.size ≤ s'.size)
      (hown : ∀ a ∈ own, s'.cell a = s.cell a) : Building start items own builder s'

namespace Building

variable {start s : Store} {items : List Value} {own : List Nat} {builder : Builder}

theorem holds (h : start.Building items own builder s) : builder.Holds s own items := by
  induction h with
  | begin => exact .empty start
  | push _ v ih => exact ih.push v
  | meanwhile _ hsize hown ih => exact ih.congr hsize hown

theorem size_le (h : start.Building items own builder s) : start.size ≤ s.size := by
  induction h with
  | begin => exact Nat.le_refl _
  | push _ v ih =>
    rw [Builder.size_push]
    exact Nat.le_succ_of_le ih
  | meanwhile _ hsize _ ih => exact Nat.le_trans ih hsize

/-- The builder has made all its cells itself. -/
theorem own_new (h : start.Building items own builder s) : ∀ a ∈ own, start.size ≤ a := by
  induction h with
  | begin => simp
  | push h _ ih =>
    intro a ha
    rcases List.mem_append.mp ha with ha | ha
    · exact ih a ha
    · rw [List.mem_singleton.mp ha]
      exact h.size_le
  | meanwhile _ _ _ ih => exact ih

theorem cell_push (h : start.Building items own builder s) {a : Nat} (ha : a < s.size)
    (hother : a ∉ own) (v : Value) : ((builder.push v).run s).2.cell a = s.cell a := by
  refine Builder.cell_push ha (fun hlast => hother ?_) v
  rw [← h.holds.last_eq] at hlast
  exact List.mem_of_getLast? hlast

theorem pushAll (h : start.Building items own builder s) (more : List Value) :
    start.Building (items ++ more) (own ++ List.range' s.size more.length)
      ((more.foldlM Builder.push builder).run s).1
      ((more.foldlM Builder.push builder).run s).2 := by
  induction more generalizing items own builder s with
  | nil =>
    rw [List.append_nil, List.length_nil, List.range'_zero, List.append_nil]
    exact h
  | cons v more ih =>
    have hmore := ih (h.push v)
    rw [Builder.size_push, List.append_assoc, List.append_assoc] at hmore
    exact hmore

end Building

/-! ## Replaced ends -/

/-- A list with another end: the last cell is made to lead there.  The empty list is nothing but its
end. -/
def withEnd (s : Store) (v last : Value) : Value × Store :=
  match (s.links v).getLast? with
  | some a => (v, s.setRest a last)
  | none => (last, s)

/-- There are more cells, and those from before are as they were. -/
structure GrowsTo (s s' : Store) : Prop where
  size_le : s.size ≤ s'.size
  cell_eq : ∀ a, a < s.size → s'.cell a = s.cell a

theorem Built.growsTo {s s' : Store} {items : List Value} {builder : Builder}
    (h : s.Built items builder s') : s.GrowsTo s' where
  size_le := by
    rw [h.size_eq]
    exact Nat.le_add_right _ _
  cell_eq := h.cell_old

namespace Chain

variable {s s' : Store} {v w last last' : Value} {links links' : List Nat}

theorem last_atom (h : s.Chain v links last) : ∀ a, last ≠ .pair a := by
  induction h with
  | stop hv => exact hv
  | link _ _ ih => exact ih

theorem withEnd (h : s.Chain v links last) (hlast : ∀ a, last' ≠ .pair a) :
    (s.withEnd v last').2.Chain (s.withEnd v last').1 links last' := by
  unfold Store.withEnd
  rw [h.links_eq]
  cases hend : links.getLast? with
  | none =>
    obtain rfl : links = [] := List.getLast?_eq_none_iff.mp hend
    exact .stop hlast
  | some a =>
    obtain ⟨before, rfl⟩ := List.getLast?_eq_some_iff.mp hend
    exact h.setRest (.stop hlast)

/-- Another end changes no first halves, and no cell that is not on the chain. -/
theorem withEnd_cells (h : s.Chain v links last) (last' : Value) :
    (s.withEnd v last').2.size = s.size ∧
      (∀ a, ((s.withEnd v last').2.cell a).first = (s.cell a).first) ∧
      ∀ a, a ∉ links → (s.withEnd v last').2.cell a = s.cell a := by
  unfold Store.withEnd
  rw [h.links_eq]
  cases hend : links.getLast? with
  | none => exact ⟨rfl, fun _ => rfl, fun _ _ => rfl⟩
  | some a =>
    have ha : a ∈ links := List.mem_of_getLast? hend
    refine ⟨size_setRest .., first_setRest (h.lt_size a ha) last', fun b hb => ?_⟩
    exact cell_setRest_of_ne last' fun heq => hb (heq ▸ ha)

theorem growsTo (h : s.Chain v links last) (hgrows : s.GrowsTo s') :
    s'.Chain v links last ∧
      (links.map fun a => (s'.cell a).first) = links.map fun a => (s.cell a).first := by
  have hcells : ∀ a ∈ links, s'.cell a = s.cell a := fun a ha => hgrows.cell_eq a (h.lt_size a ha)
  refine ⟨h.congr fun a ha => ⟨?_, congrArg Cell.rest (hcells a ha)⟩,
    List.map_congr_left fun a ha => congrArg Cell.first (hcells a ha)⟩
  exact Nat.lt_of_lt_of_le (h.lt_size a ha) hgrows.size_le

end Chain

/-! ## Copies -/

/-- A value is found equal to itself without being looked into. -/
theorem equalWithin_self (s : Store) (steps : Nat) (v : Value) :
    s.equalWithin (steps + 1) v v = true := by
  cases v with
  | pair a => simp [equalWithin]
  | nil | number | string | symbol =>
    rw [equalWithin_of_atom (by simp)]
    exact Value.equalAtoms_self (by simp)

namespace Chain

variable {s s' : Store} {v w last last' : Value} {links links' : List Nat}

/-- Two chains of the same elements are equal exactly if their ends are. -/
theorem equalWithin_iff (h : s.Chain v links last) (h' : s.Chain w links' last')
    (hsame : (links.map fun a => (s.cell a).first) = links'.map fun a => (s.cell a).first)
    {steps : Nat} (hsteps : links = [] ∨ links.length < steps) :
    s.equalWithin steps v w = true ↔ last.equalAtoms last' = true := by
  induction h generalizing w links' steps with
  | stop hv =>
    cases h' with
    | stop => rw [equalWithin_of_atom hv]
    | link => exact absurd hsame (by simp)
  | @link a links last _ hrest ih =>
    cases h' with
    | stop => exact absurd hsame (by simp)
    | @link b _ _ _ hrest' =>
      obtain ⟨hfirst, hsame⟩ : (s.cell a).first = (s.cell b).first ∧ _ := List.cons.inj hsame
      have hlength : links.length + 1 < steps := hsteps.resolve_left (by simp)
      obtain ⟨fewer, rfl⟩ : ∃ fewer, steps = fewer + 1 + 1 := ⟨steps - 2, by omega⟩
      rw [equalWithin, ← hfirst, equalWithin_self, Bool.true_and, Bool.or_eq_true,
        decide_eq_true_eq, ih hrest' hsame (.inr (Nat.lt_of_succ_lt_succ hlength))]
      -- One cell has one chain, so the shortcut is right.
      refine or_iff_right_of_imp ?_
      rintro rfl
      rw [(hrest.unique hrest').2]
      exact Value.equalAtoms_self hrest'.last_atom

/-- Later on, a chain of the elements of a value is equal to it exactly if it ends in the same. -/
theorem equal_copy_iff (h : s.Chain v links last) (hgrows : s.GrowsTo s')
    (hsize : s.size + links.length ≤ s'.size) (hcopy : s'.Chain w links' last')
    (hsame : (links'.map fun a => (s'.cell a).first) = s.elements v) :
    (s'.equal v w = true ↔ last.equalAtoms last' = true) ∧
      (s'.equal w v = true ↔ last'.equalAtoms last = true) := by
  obtain ⟨hlater, hfirsts⟩ := h.growsTo hgrows
  rw [h.elements_eq, ← hfirsts] at hsame
  have hlength : links'.length = links.length := by simpa using congrArg List.length hsame
  have hle := h.length_le_size
  have hroom : links = [] ∨ links.length < s'.size := by
    rw [← List.length_eq_zero_iff]
    omega
  have hroom' : links' = [] ∨ links'.length < s'.size := by
    rw [← List.length_eq_zero_iff]
    omega
  exact ⟨hlater.equalWithin_iff hcopy hsame.symm hroom, hcopy.equalWithin_iff hlater hsame hroom'⟩

/-- A list made of the elements of a value is equal to it exactly if the value is a proper list, and
with the end of the value for its own end it is equal anyway. -/
theorem equal_list (h : s.Chain v links last) :
    let made := (list (s.elements v)).run s
    let ended := made.2.withEnd made.1 (s.tail v)
    (made.2.equal made.1 v = true ↔ s.isProperList v = true) ∧
      ended.2.equal v ended.1 = true ∧
      ended.2.elements ended.1 = s.elements v ∧ ended.2.tail ended.1 = s.tail v ∧
      s.GrowsTo ended.2 := by
  intro made ended
  obtain ⟨builder, hbuilt, hresult⟩ := built_list s (s.elements v)
  have hlist : made.2.Chain made.1 (List.range' s.size (s.elements v).length) .nil := by
    rw [hresult]
    exact hbuilt.chain
  have hfirsts := hlist.elements_eq.symm.trans (elements_list s (s.elements v))
  have hend : ∀ a, s.tail v ≠ .pair a := by
    rw [h.tail_eq]
    exact h.last_atom
  have hsize : s.size + links.length ≤ made.2.size := by
    refine Nat.le_of_eq ?_
    rw [hbuilt.size_eq, h.elements_eq, List.length_map]
  -- The list is changed in its last cell only, and that is none of those there were before.
  obtain ⟨hsame, hfirst, hcell⟩ := hlist.withEnd_cells (s.tail v)
  have hended := hlist.withEnd hend
  have hfirsts' := (List.map_congr_left fun a _ => hfirst a).trans hfirsts
  have hgrows : s.GrowsTo ended.2 := by
    refine ⟨hsame ▸ hbuilt.growsTo.size_le, fun a ha => ?_⟩
    refine (hcell a fun hmem => ?_).trans (hbuilt.cell_old a ha)
    exact Nat.not_le.mpr ha (List.mem_range'_1.mp hmem).1
  have hequal := (h.equal_copy_iff hbuilt.growsTo hsize hlist hfirsts).2
  have hequal' := (h.equal_copy_iff hgrows (hsame ▸ hsize) hended hfirsts').1
  refine ⟨?_, ?_, hended.elements_eq.trans hfirsts', hended.tail_eq, hgrows⟩
  · rw [hequal, isProperList, h.tail_eq, decide_eq_true_eq]
    cases last <;> simp [Value.equalAtoms]
  · rw [hequal', h.tail_eq]
    exact Value.equalAtoms_self h.last_atom

end Chain

/-- A builder finishes with a proper list of just the values that it was given, in order, which
consists of the cells made for them.  Nothing else is changed, whatever the values share, and
whatever happens to the cells of others in between.  A list made of the elements of a value whose
chain ends, as that of every finite tree does, is equal to the value exactly if the value is a
proper list, and becomes equal if it is given the end of the value. -/
theorem builder_correct (s : Store) :
    (∀ items : List Value,
      let built := (items.foldlM Builder.push .empty).run s
      built.1.Finished built.2 (List.range' s.size items.length) items ∧
        built.2.size = s.size + items.length ∧ s.GrowsTo built.2) ∧
    (∀ items own builder s', s.Building items own builder s' →
      builder.Finished s' own items ∧ (∀ a ∈ own, s.size ≤ a) ∧
        ∀ v a, a < s'.size → a ∉ own → ((builder.push v).run s').2.cell a = s'.cell a) ∧
    ∀ v links last, s.Chain v links last →
      let made := (list (s.elements v)).run s
      let ended := made.2.withEnd made.1 (s.tail v)
      (made.2.equal made.1 v = true ↔ s.isProperList v = true) ∧
        ended.2.equal v ended.1 = true ∧
        ended.2.elements ended.1 = s.elements v ∧ ended.2.tail ended.1 = s.tail v ∧
        s.GrowsTo ended.2 := by
  refine ⟨fun items => ?_, fun items own builder s' h => ?_, fun v links last h => h.equal_list⟩
  · have hbuilding := (Building.begin : s.Building [] [] .empty s).pushAll items
    have hbuilt := (Built.empty s).pushAll items
    exact ⟨hbuilding.holds.finished, hbuilt.size_eq, hbuilt.growsTo⟩
  · exact ⟨h.holds.finished, h.own_new, fun v a ha hother => h.cell_push ha hother v⟩

/-- Two pairs that share a cell.  One builder is given that cell, and later a pair that has been made
in the meantime, when the shared cell has been changed as well. -/
theorem builder_correct_shared :
    let s : Store := { cells := #[⟨.number (.integer 1), .string ⟨0, "end"⟩⟩, ⟨.pair 0, .pair 0⟩] }
    let started := (Builder.empty.push (.pair 0)).run s
    let later := (started.2.appended (.pair 1) .nil).setFirst 0 (.number (.integer 2))
    let built := (started.1.push (.pair 3)).run later
    let made := (list (s.elements (.pair 1))).run s
    let ended := made.2.withEnd made.1 (s.tail (.pair 1))
    s.Building [.pair 0, .pair 3] [2, 4] built.1 built.2 ∧
      built.1.Finished built.2 [2, 4] [.pair 0, .pair 3] ∧
      s.Chain (.pair 1) [1, 0] (.string ⟨0, "end"⟩) ∧
      made.2.equal made.1 (.pair 1) = false ∧ ended.2.equal (.pair 1) ended.1 = true := by
  intro s started later built made ended
  have hstarted : s.Building [.pair 0] [2] started.1 started.2 := .push .begin (.pair 0)
  have hlater : s.Building [.pair 0] [2] started.1 later :=
    hstarted.meanwhile (by decide) (by decide)
  have hbuilding : s.Building [.pair 0, .pair 3] [2, 4] built.1 built.2 := hlater.push (.pair 3)
  have hchain : s.Chain (.pair 1) [1, 0] (.string ⟨0, "end"⟩) :=
    .link (by decide) (.link (by decide) (.stop nofun))
  obtain ⟨hfinished, -⟩ := (builder_correct s).2.1 _ _ _ _ hbuilding
  obtain ⟨hproper, hequal, -⟩ := (builder_correct s).2.2 _ _ _ hchain
  refine ⟨hbuilding, hfinished, hchain, ?_, hequal⟩
  rw [← Bool.not_eq_true, hproper]
  decide

end DynLisp.Store
