/-
  Proofs/Copies.lean --- forms that show the same and share nothing.

  WHAT THIS FILE IS FOR.  A `cond` and the nested `if`s that stand for it need not be made
  of the same cells: a text is read into new ones each time.  But where there is a form
  there is room for another one of its very parts (`exists_nestedIf`), and more cells make
  no difference to an evaluation (`endsAlike_of_grows`).  So what holds of forms that share
  their parts holds of copies as well, as far as can be seen from what they show
  (`Session.EndsAlike`).

  THE RESULT.  `cond_means_nested_if` says both.
-/
import DynLisp.Proofs.Clauses

set_option autoImplicit false

namespace DynLisp

open Evaluation

/-! ## Forms as data -/

namespace Datum

/-- The list of a name and some arguments. -/
def form (name : String) (arguments : List Datum) : Datum := ofList (symbol name :: arguments)

/-- `(cond (t r) ...)`. -/
def cond (clauses : List (Datum × Datum)) : Datum :=
  form "cond" (clauses.map fun clause => ofList [clause.1, clause.2])

/-- `(if t r (if ...))`. -/
def nestedIf : List (Datum × Datum) → Datum
  | [] => nil
  | [(test, result)] => form "if" [test, result]
  | (test, result) :: more => form "if" [test, result, nestedIf more]

/-- `(and t r)`, `(if t r)` and `(cond (t r))`. -/
def guarded (test result : Datum) : List Datum :=
  [form "and" [test, result], form "if" [test, result], cond [(test, result)]]

end Datum

/-- The tests and results show the two halves of some data. -/
def Store.ShowClauses (s : Store) (clauses : List (Value × Value)) (data : List (Datum × Datum)) :
    Prop :=
  List.Forall₂ (fun clause datum => s.Shows clause.1 datum.1 ∧ s.Shows clause.2 datum.2)
    clauses data

namespace Memory

variable {m : Memory} {v : Value}

/-- The elements of what shows a list show its items. -/
theorem Valid.elements_show (h : m.Valid) (hv : m.Visible v) {data : List Datum}
    (hshows : m.store.Shows v (.ofList data)) :
    List.Forall₂ m.store.Shows (m.store.elements v) data := by
  induction data generalizing v with
  | nil =>
    cases hshows
    rw [Store.elements_of_atom _ (by simp)]
    exact .nil
  | cons item more ih =>
    cases hshows with
    | pair ha hfirst hrest =>
      rw [h.elements_pair hv]
      exact .cons hfirst (ih (h.cell_visible _ hv).2 hrest)

theorem Valid.isForm_of_shows (h : m.Valid) (hv : m.Visible v) {name : String} {data : List Datum}
    (hshows : m.store.Shows v (.form name data)) :
    ∃ arguments, m.store.IsForm name arguments v ∧
      List.Forall₂ m.store.Shows arguments data := by
  have helements := h.elements_show hv hshows
  generalize helements' : m.store.elements v = items at helements
  cases helements with
  | cons hname harguments =>
    cases hname with
    | symbol label => exact ⟨_, ⟨label, rfl, helements'⟩, harguments⟩

theorem Valid.isCond_of_shows (h : m.Valid) (hv : m.Visible v) {data : List (Datum × Datum)}
    (hshows : m.store.Shows v (.cond data)) :
    ∃ clauses, m.store.IsCond clauses v ∧ m.store.ShowClauses clauses data := by
  obtain ⟨items, hform, hitems⟩ := h.isForm_of_shows hv hshows
  have hvisible := h.arguments_visible hv hform
  suffices hclauses : ∃ clauses, m.store.AreClauses clauses items ∧
      m.store.ShowClauses clauses data by
    obtain ⟨clauses, hclauses, hshown⟩ := hclauses
    exact ⟨clauses, ⟨items, hform, hclauses⟩, hshown⟩
  clear hform hshows
  induction data generalizing items with
  | nil =>
    cases hitems
    exact ⟨[], .nil, .nil⟩
  | cons datum data ih =>
    cases hitems with
    | @cons item _ items _ hitem hitems =>
      obtain ⟨hitemvisible, hvisible⟩ := List.forall_mem_cons.mp hvisible
      obtain ⟨clauses, hclauses, hshown⟩ := ih items hitems hvisible
      have hparts := h.elements_show hitemvisible hitem
      generalize helements : m.store.elements item = parts at hparts
      cases hparts with
      | @cons test _ _ _ htest hparts =>
        cases hparts with
        | @cons result _ _ _ hresult hparts =>
          cases hparts
          exact ⟨(test, result) :: clauses, .cons helements hclauses,
            .cons ⟨htest, hresult⟩ hshown⟩

theorem Valid.isGuarded_of_shows (h : m.Valid) (hv : m.Visible v) {a b datum : Datum}
    (hdatum : datum ∈ Datum.guarded a b) (hshows : m.store.Shows v datum) :
    ∃ test result, m.store.IsGuarded test result v ∧
      m.store.ShowClauses [(test, result)] [(a, b)] := by
  have hform : ∀ {name}, m.store.Shows v (.form name [a, b]) → ∃ test result,
      m.store.IsForm name [test, result] v ∧ m.store.ShowClauses [(test, result)] [(a, b)] := by
    intro name hshows
    obtain ⟨arguments, hform, harguments⟩ := h.isForm_of_shows hv hshows
    cases harguments with
    | cons htest hmore =>
      cases hmore with
      | cons hresult hnone =>
        cases hnone
        exact ⟨_, _, hform, .cons ⟨htest, hresult⟩ .nil⟩
  simp only [Datum.guarded, List.mem_cons, List.not_mem_nil, or_false] at hdatum
  rcases hdatum with rfl | rfl | rfl
  · obtain ⟨test, result, hand, hparts⟩ := hform hshows
    exact ⟨test, result, .inl hand, hparts⟩
  · obtain ⟨test, result, hif, hparts⟩ := hform hshows
    exact ⟨test, result, .inr (.inl hif), hparts⟩
  · obtain ⟨clauses, hcond, hparts⟩ := h.isCond_of_shows hv hshows
    cases hparts with
    | cons hclause hnone =>
      cases hnone
      exact ⟨_, _, .inr (.inr hcond), .cons hclause .nil⟩

theorem Valid.parts_visible (h : m.Valid) {test result : Value} (hv : m.Visible v)
    (helements : m.store.elements v = [test, result]) : m.Visible test ∧ m.Visible result := by
  have hparts := h.element_visible hv
  rw [helements] at hparts
  exact ⟨hparts test (by simp), hparts result (by simp)⟩

theorem Valid.clauses_visible (h : m.Valid) (hv : m.Visible v) {clauses : List (Value × Value)}
    (hcond : m.store.IsCond clauses v) :
    ∀ clause ∈ clauses, m.Visible clause.1 ∧ m.Visible clause.2 := by
  obtain ⟨items, hform, hclauses⟩ := hcond
  have hvisible := h.arguments_visible hv hform
  clear hform
  induction hclauses with
  | nil => simp
  | cons hclause _ ih =>
    obtain ⟨hitem, hvisible⟩ := List.forall_mem_cons.mp hvisible
    exact List.forall_mem_cons.mpr ⟨h.parts_visible hitem hclause, ih hvisible⟩

theorem Valid.guarded_visible (h : m.Valid) (hv : m.Visible v) {test result : Value}
    (hguarded : m.store.IsGuarded test result v) : m.Visible test ∧ m.Visible result := by
  rcases hguarded with hand | hif | hcond
  · have hparts := h.arguments_visible hv hand
    exact ⟨hparts test (by simp), hparts result (by simp)⟩
  · have hparts := h.arguments_visible hv hif
    exact ⟨hparts test (by simp), hparts result (by simp)⟩
  · exact h.clauses_visible hv hcond _ (List.mem_singleton_self _)

/-! ## Forms stay forms -/

section Spared

variable {n : Memory} (hm : m.Spares n) (h : m.Valid) (hv : m.Visible v)
include hm h hv

theorem Spares.isCond {clauses : List (Value × Value)} (hcond : m.store.IsCond clauses v) :
    n.store.IsCond clauses v := by
  obtain ⟨items, hform, hclauses⟩ := hcond
  have hvisible := h.arguments_visible hv hform
  refine ⟨items, hm.isForm h hv hform, ?_⟩
  clear hform
  induction hclauses with
  | nil => exact .nil
  | cons hclause _ ih =>
    obtain ⟨hitem, hvisible⟩ := List.forall_mem_cons.mp hvisible
    exact .cons ((hm.elements_eq h hitem).trans hclause) (ih hvisible)

theorem Spares.isNestedIf {clauses : List (Value × Value)}
    (hif : m.store.IsNestedIf clauses v) : n.store.IsNestedIf clauses v := by
  induction hif with
  | last hform => exact .last (hm.isForm h hv hform)
  | @more _ _ other _ _ hform _ ih =>
    exact .more (hm.isForm h hv hform) (ih (h.arguments_visible hv hform other (by simp)))

theorem Spares.isGuarded {test result : Value} (hguarded : m.store.IsGuarded test result v) :
    n.store.IsGuarded test result v := by
  rcases hguarded with hand | hif | hcond
  · exact .inl (hm.isForm h hv hand)
  · exact .inr (.inl (hm.isForm h hv hif))
  · exact .inr (.inr (hm.isCond h hv hcond))

end Spared

/-! ## Forms of given parts -/

/-- There is room for a list of what can be seen. -/
theorem Valid.exists_list (h : m.Valid) {items : List Value} {data : List Datum}
    (hitems : ∀ item ∈ items, m.Visible item) (hshows : List.Forall₂ m.store.Shows items data) :
    ∃ n list, m.Grows n ∧ m.Yields n list ∧ n.store.elements list = items ∧
      n.store.Shows list (.ofList data) := by
  induction hshows with
  | nil =>
    exact ⟨m, .nil, ⟨rfl, Nat.le_refl _, fun _ _ => rfl⟩, .here h trivial,
      Store.elements_of_atom _ (by simp), .nil⟩
  | @cons item datum items data hitem _ ih =>
    obtain ⟨hvisible, hitems⟩ := List.forall_mem_cons.mp hitems
    obtain ⟨n, list, hgrows, hyields, helements, hlist⟩ := ih hitems
    have hpair := hyields.valid.appended (hyields.evolves.visible hvisible) hyields.visible
    have hitem' : n.store.Shows item datum := hyields.evolves.toSpares.shows h hitem hvisible
    refine ⟨_, _, hgrows.trans (n.grows_appended item list), hpair.after hyields.evolves, ?_, ?_⟩
    · rw [hpair.valid.elements_pair hpair.visible, Store.cell_appended_size,
        hpair.evolves.toSpares.elements_eq hyields.valid hyields.visible, helements]
    · exact hyields.valid.shows_appended (hyields.evolves.visible hvisible) hyields.visible hitem'
        hlist

theorem Valid.exists_form (h : m.Valid) (name : String) {arguments : List Value}
    {data : List Datum} (harguments : ∀ argument ∈ arguments, m.Visible argument)
    (hshows : List.Forall₂ m.store.Shows arguments data) :
    ∃ n whole, m.Grows n ∧ m.Yields n whole ∧ n.store.IsForm name arguments whole ∧
      n.store.Shows whole (.form name data) := by
  have hitems : ∀ item ∈ .symbol ⟨0, name⟩ :: arguments, m.Visible item :=
    List.forall_mem_cons.mpr ⟨trivial, harguments⟩
  obtain ⟨n, whole, hgrows, hyields, helements, hwhole⟩ :=
    h.exists_list hitems (.cons (.symbol ⟨0, name⟩) hshows)
  exact ⟨n, whole, hgrows, hyields, ⟨⟨0, name⟩, rfl, helements⟩, hwhole⟩

/-- There is room for nested `if`s of tests and results that can be seen. -/
theorem Valid.exists_nestedIf (h : m.Valid) {clauses : List (Value × Value)}
    {data : List (Datum × Datum)} (hne : clauses ≠ [])
    (hclauses : ∀ clause ∈ clauses, m.Visible clause.1 ∧ m.Visible clause.2)
    (hshows : m.store.ShowClauses clauses data) :
    ∃ n nested, m.Grows n ∧ m.Yields n nested ∧ n.store.IsNestedIf clauses nested ∧
      n.store.Shows nested (.nestedIf data) := by
  induction hshows with
  | nil => exact absurd rfl hne
  | @cons clause datum more data hclause hmore ih =>
    obtain ⟨⟨htest, hresult⟩, hvisible⟩ := List.forall_mem_cons.mp hclauses
    obtain ⟨hshowtest, hshowresult⟩ := hclause
    cases hmore with
    | nil =>
      have harguments : ∀ argument ∈ [clause.1, clause.2], m.Visible argument := by simp [*]
      obtain ⟨n, nested, hgrows, hyields, hform, hnested⟩ := h.exists_form "if" harguments
        (.cons hshowtest (.cons hshowresult .nil))
      exact ⟨n, nested, hgrows, hyields, .last hform, hnested⟩
    | cons hnext hmore =>
      obtain ⟨n, other, hgrows, hyields, hother, hshowother⟩ := ih (by simp) hvisible
      have hspares := hyields.evolves.toSpares
      have harguments : ∀ argument ∈ [clause.1, clause.2, other], n.Visible argument := by
        simp [hspares.visible htest, hspares.visible hresult, hyields.visible]
      obtain ⟨n', nested, hgrows', hyields', hform, hnested⟩ :=
        hyields.valid.exists_form "if" harguments
          (.cons (hspares.shows h hshowtest htest)
            (.cons (hspares.shows h hshowresult hresult) (.cons hshowother .nil)))
      have hother' := hyields'.evolves.toSpares.isNestedIf hyields.valid hyields.visible hother
      exact ⟨n', nested, hgrows.trans hgrows', hyields'.after hyields.evolves,
        .more hform hother', hnested⟩

end Memory

/-! ## Evaluations that show alike -/

namespace Memory

variable {m n l : Memory}

theorem ShowsAlike.symm (h : m.ShowsAlike n) : n.ShowsAlike m :=
  ⟨h.globals.symm, fun name => (h.calls name).symm⟩

theorem ShowsAlike.trans (h : m.ShowsAlike n) (h' : n.ShowsAlike l) : m.ShowsAlike l :=
  ⟨h'.globals.trans h.globals, fun name => (h'.calls name).trans (h.calls name)⟩

theorem Valid.showsAlike_of_grows (h : m.Valid) (hm : m.Grows n) : m.ShowsAlike n := by
  have hspares := (hm.evolves h).toSpares
  constructor
  · unfold shownGlobals
    rw [h.globalBindings_eq_of_grows hm]
    refine List.map_congr_left fun binding hb => ?_
    obtain ⟨hkey, hv⟩ := h.visible_of_mem_globalBindings hb
    rw [hspares.content_eq h hkey, hspares.content_eq h hv]
  · intro name
    unfold shownName
    rw [h.calledName_eq (hm.evolves h)]
    exact Option.map_congr fun v hv => hspares.content_eq h (h.calledName_visible hv)

end Memory

namespace Session

variable {s s' s'' : Session} {x y z : Value}

/-- One expression comes in one session to what another one does in another session: the values
show the same, the reports are the same, and the bindings show the same afterwards. -/
structure EndsAlike (s : Session) (x : Value) (s' : Session) (y : Value) : Prop where
  value : ((evaluate y).run s').2.memory.store.content ((evaluate y).run s').1 =
    ((evaluate x).run s).2.memory.store.content ((evaluate x).run s).1
  reports : s'.reportsOf y = s.reportsOf x
  memory : ((evaluate x).run s).2.memory.ShowsAlike ((evaluate y).run s').2.memory

namespace EndsAlike

theorem symm (h : s.EndsAlike x s' y) : s'.EndsAlike y s x :=
  ⟨h.value.symm, h.reports.symm, h.memory.symm⟩

theorem trans (h : s.EndsAlike x s' y) (h' : s'.EndsAlike y s'' z) : s.EndsAlike x s'' z :=
  ⟨h'.value.trans h.value, h'.reports.trans h.reports, h.memory.trans h'.memory⟩

theorem of_run_eq (h : (evaluate x).run s = (evaluate y).run s) : s.EndsAlike x s y := by
  constructor
  case value => rw [h]
  case reports => rw [reportsOf, reportsOf, h]
  case memory =>
    rw [h]
    exact ⟨rfl, fun _ => rfl⟩

end EndsAlike

theorem Valid.endsAlike (h : s.Valid) (h' : s'.Valid) (hsettings : s'.settings = s.settings)
    (hshown : s.memory.ShowsAlike s'.memory) (hx : s.memory.Visible x) (hy : s'.memory.Visible y)
    {datum : Datum} (hshows : s.memory.store.Shows x datum)
    (hshows' : s'.memory.store.Shows y datum) : s.EndsAlike x s' y := by
  obtain ⟨hvalue, hreports, hmemory⟩ := h.evaluate_showsAlike h' hsettings hshown hx hy
    (hshows'.content_eq.trans hshows.content_eq.symm)
  exact ⟨hvalue, hreports, hmemory⟩

/-- The session with another memory. -/
def remembering (s : Session) (m : Memory) : Session := { s with memory := m }

theorem Valid.remembering (h : s.Valid) {n : Memory} (hn : n.Valid) : (s.remembering n).Valid :=
  ⟨hn, h.truth, h.resting⟩

/-- What was there comes to the same when there is more. -/
theorem Valid.endsAlike_of_grows (h : s.Valid) {n : Memory} (hm : s.memory.Grows n)
    (hn : n.Valid) (hx : s.memory.Visible x) : s.EndsAlike x (s.remembering n) x := by
  have hspares := (hm.evolves h.memory).toSpares
  have hshows := h.memory.shows hx
  exact h.endsAlike (h.remembering hn) rfl (h.memory.showsAlike_of_grows hm) hx
    (hspares.visible hx) hshows (hspares.shows h.memory hshows hx)

theorem Valid.cond_endsAlike (h : s.Valid) (h' : s'.Valid) (hsettings : s'.settings = s.settings)
    (hshown : s.memory.ShowsAlike s'.memory) (hx : s.memory.Visible x) (hy : s'.memory.Visible y)
    {data : List (Datum × Datum)} (hne : data ≠ []) (hcond : s.memory.store.Shows x (.cond data))
    (hif : s'.memory.store.Shows y (.nestedIf data)) (hfits : ¬ s'.Exceeds y) :
    s.EndsAlike x s' y := by
  obtain ⟨clauses, hclauses, hparts⟩ := h.memory.isCond_of_shows hx hcond
  have hne' : clauses ≠ [] := by
    rintro rfl
    exact hne (List.forall₂_nil_left_iff.mp hparts)
  have hvisible := h.memory.clauses_visible hx hclauses
  -- The nested `if`s are made once more, out of the very parts of the clauses.
  obtain ⟨n, nested, hgrows, hyields, hnested, hshows⟩ :=
    h.memory.exists_nestedIf hne' hvisible hparts
  have hvalid := h.remembering hyields.valid
  have hspares := hyields.evolves.toSpares
  have hleft := h.endsAlike_of_grows hgrows hyields.valid hx
  have hright := hvalid.endsAlike h' hsettings
    ((h.memory.showsAlike_of_grows hgrows).symm.trans hshown) hyields.visible hy hshows hif
  have hfits' : ¬ (s.remembering n).Exceeds nested := by
    rintro ⟨limit, hlimit⟩
    exact hfits ⟨limit, hright.reports ▸ hlimit⟩
  have hrun := hvalid.run_evaluate_cond (hspares.visible hx) hyields.visible
    (hspares.isCond h.memory hx hclauses) hnested hfits'
  exact (hleft.trans (.of_run_eq hrun)).trans hright

/-- Each of the three forms comes to what an `if` of the same parts does. -/
theorem Valid.exists_if_endsAlike (h : s.Valid) (hx : s.memory.Visible x) {a b datum : Datum}
    (hdatum : datum ∈ Datum.guarded a b) (hshows : s.memory.store.Shows x datum) :
    ∃ n choice, s.memory.Grows n ∧ s.memory.Yields n choice ∧
      n.store.Shows choice (.form "if" [a, b]) ∧ s.EndsAlike x (s.remembering n) choice := by
  obtain ⟨test, result, hguarded, hparts⟩ := h.memory.isGuarded_of_shows hx hdatum hshows
  have hvisible := h.memory.guarded_visible hx hguarded
  obtain ⟨n, choice, hgrows, hyields, hchoice, hif⟩ :=
    h.memory.exists_nestedIf (by simp) (List.forall_mem_singleton.mpr hvisible) hparts
  have hvalid := h.remembering hyields.valid
  have hspares := hyields.evolves.toSpares
  have hsame : n.store.IsGuarded test result choice := by
    cases hchoice with
    | last hform => exact .inr (.inl hform)
    | more _ hother => cases hother
  have hrun := hvalid.run_evaluate_guarded (hspares.visible hx) hyields.visible
    (hspares.isGuarded h.memory hx hguarded) hsame
  exact ⟨n, choice, hgrows, hyields, hif,
    (h.endsAlike_of_grows hgrows hyields.valid hx).trans (.of_run_eq hrun)⟩

theorem Valid.guarded_endsAlike (h : s.Valid) (h' : s'.Valid)
    (hsettings : s'.settings = s.settings) (hshown : s.memory.ShowsAlike s'.memory)
    (hx : s.memory.Visible x) (hy : s'.memory.Visible y) {a b datum datum' : Datum}
    (hdatum : datum ∈ Datum.guarded a b) (hshows : s.memory.store.Shows x datum)
    (hdatum' : datum' ∈ Datum.guarded a b) (hshows' : s'.memory.store.Shows y datum') :
    s.EndsAlike x s' y := by
  obtain ⟨n, choice, hgrows, hyields, hif, hleft⟩ := h.exists_if_endsAlike hx hdatum hshows
  obtain ⟨n', choice', hgrows', hyields', hif', hright⟩ :=
    h'.exists_if_endsAlike hy hdatum' hshows'
  have hvalid := h.remembering hyields.valid
  have hvalid' := h'.remembering hyields'.valid
  have hgrown : n.ShowsAlike n' := (h.memory.showsAlike_of_grows hgrows).symm.trans
    (hshown.trans (h'.memory.showsAlike_of_grows hgrows'))
  have hmiddle :=
    hvalid.endsAlike hvalid' hsettings hgrown hyields.visible hyields'.visible hif hif'
  exact (hleft.trans hmiddle).trans hright.symm

end Session

/-! ## `cond` and `if` -/

/-- A `cond` does what nested `if`s of the same clauses do, unless these go too deep.  With a single
clause the two forms and `and` do the same, whether they go too deep or not.  If the forms share
their tests and results, all is the same.  If they are copies of each other, perhaps in two sessions
that show alike, all shows the same. -/
theorem cond_means_nested_if {s : Session} (h : s.Reachable) :
    (∀ clauses whole nested, s.memory.Visible whole → s.memory.Visible nested →
      s.memory.store.IsCond clauses whole → s.memory.store.IsNestedIf clauses nested →
      ¬ s.Exceeds nested → (evaluate whole).run s = (evaluate nested).run s) ∧
    (∀ test result x y, s.memory.Visible x → s.memory.Visible y →
      s.memory.store.IsGuarded test result x → s.memory.store.IsGuarded test result y →
      (evaluate x).run s = (evaluate y).run s) ∧
    ∀ s' : Session, s'.Reachable → s'.settings = s.settings → s.memory.ShowsAlike s'.memory →
      ∀ x y, s.memory.Visible x → s'.memory.Visible y →
        (∀ clauses ≠ [], s.memory.store.content x = .cond clauses →
          s'.memory.store.content y = .nestedIf clauses → ¬ s'.Exceeds y →
          s.EndsAlike x s' y) ∧
        ∀ a b, s.memory.store.content x ∈ Datum.guarded a b →
          s'.memory.store.content y ∈ Datum.guarded a b → s.EndsAlike x s' y := by
  refine ⟨?shared, ?single, ?copies⟩
  case shared =>
    intro clauses whole nested hwhole hnested hcond hif hfits
    exact h.valid.run_evaluate_cond hwhole hnested hcond hif hfits
  case single =>
    intro test result x y hx hy hguarded hguarded'
    exact h.valid.run_evaluate_guarded hx hy hguarded hguarded'
  case copies =>
    intro s' h' hsettings hshown x y hx hy
    have hshows := h.valid.memory.shows hx
    have hshows' := h'.valid.memory.shows hy
    constructor
    · intro clauses hne hcond hif hfits
      rw [hcond] at hshows
      rw [hif] at hshows'
      exact h.valid.cond_endsAlike h'.valid hsettings hshown hx hy hne hshows hshows' hfits
    · intro a b ha hb
      exact h.valid.guarded_endsAlike h'.valid hsettings hshown hx hy ha hshows hb hshows'

/-- A session that holds `(cond (() 1) (t 2))` in the cell at address 6, and `(if () 1 (if t 2))` of
the same tests and results in that at address 12. -/
def Session.holdingClauses : Session :=
  let t : Value := .symbol ⟨0, truthName⟩
  Session.start {}
    |>.after (.list [.nil, .number (.integer 1)])
    |>.after (.list [t, .number (.integer 2)])
    |>.after (.list [.symbol ⟨0, "cond"⟩, .pair 2, .pair 4])
    |>.after (.list [.symbol ⟨0, "if"⟩, t, .number (.integer 2)])
    |>.after (.list [.symbol ⟨0, "if"⟩, .nil, .number (.integer 1), .pair 9])

/-- The two forms in one session, and copies of them in two sessions. -/
theorem cond_means_nested_if_two :
    let clauses := [(Datum.nil, .number (.integer 1)), (.symbol "t", .number (.integer 2))]
    let s := (Session.start {}).after (.load (.cond clauses))
    let s' := (Session.start {}).after (.load (.nestedIf clauses))
    (Session.holdingClauses.Reachable ∧ ¬ Session.holdingClauses.Exceeds (.pair 12) ∧
      ((evaluate (.pair 6)).run Session.holdingClauses).1 = .number (.integer 2) ∧
      (evaluate (.pair 6)).run Session.holdingClauses =
        (evaluate (.pair 12)).run Session.holdingClauses) ∧
      s.Reachable ∧ s'.Reachable ∧ s.EndsAlike (.pair 8) s' (.pair 8) := by
  intro clauses s s'
  have hreachable : Session.holdingClauses.Reachable := by
    refine .after (.after (.after (.after (.after (.start {}) _ ?_) _ ?_) _ ?_) _ ?_) _ ?_ <;>
      simp only [Request.Allowed] <;> decide +kernel
  have hcond : Session.holdingClauses.memory.store.IsCond
      [(.nil, .number (.integer 1)), (.symbol ⟨0, "t"⟩, .number (.integer 2))] (.pair 6) :=
    ⟨[.pair 2, .pair 4], ⟨⟨0, "cond"⟩, rfl, by decide +kernel⟩,
      .cons (by decide +kernel) (.cons (by decide +kernel) .nil)⟩
  have hother : Session.holdingClauses.memory.store.IsNestedIf
      [(.symbol ⟨0, "t"⟩, .number (.integer 2))] (.pair 9) :=
    .last ⟨⟨0, "if"⟩, rfl, by decide +kernel⟩
  have hif : Session.holdingClauses.memory.store.IsNestedIf
      [(.nil, .number (.integer 1)), (.symbol ⟨0, "t"⟩, .number (.integer 2))] (.pair 12) :=
    .more ⟨⟨0, "if"⟩, rfl, by decide +kernel⟩ hother
  have hfits : ¬ Session.holdingClauses.Exceeds (.pair 12) := by
    have hreports : Session.holdingClauses.reportsOf (.pair 12) = [] := by decide +kernel
    rintro ⟨limit, hlimit⟩
    simp [hreports] at hlimit
  have hrun := (cond_means_nested_if hreachable).1 _ (.pair 6) (.pair 12) (by decide +kernel)
    (by decide +kernel) hcond hif hfits
  have hs : s.Reachable := .after (.start {}) (.load _) trivial
  have hs' : s'.Reachable := .after (.start {}) (.load _) trivial
  have hshown : s.memory.ShowsAlike s'.memory := ⟨by decide +kernel, fun _ => rfl⟩
  have hfits' : ¬ s'.Exceeds (.pair 8) := by
    have hreports : s'.reportsOf (.pair 8) = [] := by decide +kernel
    rintro ⟨limit, hlimit⟩
    simp [hreports] at hlimit
  have halike := ((cond_means_nested_if hs).2.2 s' hs' rfl hshown (.pair 8) (.pair 8)
    (by decide +kernel) (by decide +kernel)).1 clauses (by decide +kernel) (by decide +kernel)
    (by decide +kernel) hfits'
  exact ⟨⟨hreachable, hfits, by decide +kernel, hrun⟩, hs, hs', halike⟩

end DynLisp
