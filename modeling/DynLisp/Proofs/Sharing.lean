/-
  Proofs/Sharing.lean --- values that two memories have in common.

  WHAT THIS FILE IS FOR.  A value is more than its handle: it is all the cells that one
  can come to from it.  Two memories share a value if they have the same of those cells,
  and neither uses any of them for its global frame.  Evaluation writes into no such
  cell, so that what is shared stays shared (`Shares.spares`).

  THE LIKENESS.  If each value is taken for itself, what two memories share is a
  likeness (`Likeness.sharing`), also where the second memory binds some more names, as
  long as these are not among what one can come to.
-/
import DynLisp.Proofs.Correspondence

set_option autoImplicit false

namespace DynLisp

namespace Store.Reaches

variable {s s' : Store} {u v w : Value}

theorem trans (h : s.Reaches u v) (h' : s.Reaches v w) : s.Reaches u w :=
  h'.closed h (fun _ ha => ha.first) fun _ ha => ha.rest

theorem eq_of_atom (h : s.Reaches v w) (hv : ∀ a, v ≠ .pair a) : w = v := by
  refine h.closed (P := (· = v)) rfl ?_ ?_
  · exact fun a ha => absurd ha.symm (hv a)
  · exact fun a ha => absurd ha.symm (hv a)

end Store.Reaches

namespace Memory

/-- All cells that one can come to from the value can be seen in both memories, and are the same. -/
def Shares (m m' : Memory) (v : Value) : Prop :=
  ∀ a, m.store.Reaches v (.pair a) →
    m.Visible (.pair a) ∧ m'.Visible (.pair a) ∧ m'.store.cell a = m.store.cell a

namespace Shares

variable {m m' n n' : Memory} {v w : Value}

theorem of_atom (hv : ∀ a, v ≠ .pair a) : m.Shares m' v :=
  fun a ha => absurd (ha.eq_of_atom hv).symm (hv a)

theorem of_reaches (h : m.Shares m' v) (hw : m.store.Reaches v w) : m.Shares m' w :=
  fun a ha => h a (hw.trans ha)

theorem visible (h : m.Shares m' v) : m.Visible v := by
  cases v with
  | pair a => exact (h a .here).1
  | nil | number | string | symbol => trivial

theorem visible' (h : m.Shares m' v) : m'.Visible v := by
  cases v with
  | pair a => exact (h a .here).2.1
  | nil | number | string | symbol => trivial

/-- What is shared is so as long as only global values are overwritten. -/
theorem spares (h : m.Shares m' v) (hm : m.Spares n) (hm' : m'.Spares n') : n.Shares n' v := by
  -- In the later memory one comes to the same cells, since they are what they were.
  have hback : ∀ w, n.store.Reaches v w → m.store.Reaches v w := by
    intro w hw
    refine hw.closed .here ?_ ?_
    · intro a ha
      rw [(hm.cells a (h a ha).1).2]
      exact ha.first
    · intro a ha
      rw [(hm.cells a (h a ha).1).2]
      exact ha.rest
  intro a ha
  obtain ⟨hseen, hseen', hsame⟩ := h a (hback _ ha)
  obtain ⟨hlater, hcell⟩ := hm.cells a hseen
  obtain ⟨hlater', hcell'⟩ := hm'.cells a hseen'
  exact ⟨hlater, hlater', by rw [hcell, hcell', hsame]⟩

end Shares

/-- What comes of a memory that can see more, or has other calls, shares what could be seen. -/
theorem Valid.shares {m m' : Memory} (h : m.Valid)
    (hsame : ∀ a, m.Visible (.pair a) → m'.Visible (.pair a) ∧ m'.store.cell a = m.store.cell a)
    {v : Value} (hv : m.Visible v) : m.Shares m' v := by
  intro a ha
  have hseen := h.visible_of_reaches hv ha
  exact ⟨hseen, hsame a hseen⟩

end Memory

namespace Likeness

open Memory

variable {m m' : Memory} {extra : Bindings}

/-- The memories share the value, and none of some more names is among what one can come to. -/
def Common (m m' : Memory) (extra : Bindings) (v : Value) : Prop :=
  m.Shares m' v ∧ ∀ w, m.store.Reaches v w → extra.Lacks w

theorem Common.of_reaches {v w : Value} (h : Common m m' extra v) (hw : m.store.Reaches v w) :
    Common m m' extra w :=
  ⟨h.1.of_reaches hw, fun u hu => h.2 u (hw.trans hu)⟩

theorem Common.of_atom {v : Value} (hv : ∀ a, v ≠ .pair a) (hlacks : extra.Lacks v) :
    Common m m' extra v :=
  ⟨.of_atom hv, fun _ hw => hw.eq_of_atom hv ▸ hlacks⟩

/-- A name is equal to symbols alone. -/
theorem lacks_of_names (hnames : ∀ binding ∈ extra, ∃ label, binding.1 = .symbol label) {v : Value}
    (hv : ∀ label, v ≠ .symbol label) : extra.Lacks v := by
  intro binding hbinding
  obtain ⟨label, hlabel⟩ := hnames binding hbinding
  rw [hlabel]
  cases v with
  | symbol other => exact absurd rfl (hv other)
  | nil | number | string | pair => rfl

/-- Each value is taken for itself. -/
def sharing (m m' : Memory) (extra : Bindings)
    (hnames : ∀ binding ∈ extra, ∃ label, binding.1 = .symbol label) : Likeness m m' where
  Like v w := v = w ∧ Common m m' extra v
  extra := extra
  nil := ⟨rfl, .of_atom (by simp) (lacks_of_names hnames (by simp))⟩
  number _ := ⟨rfl, .of_atom (by simp) (lacks_of_names hnames (by simp))⟩
  resembles {v _} := by
    rintro ⟨rfl, -⟩
    cases v with
    | nil => exact .nil
    | number n => exact .number n
    | string label => exact .string rfl
    | symbol label => exact .symbol rfl
    | pair a => exact .pair a a
  visible h := h.2.1.visible
  visible' := by
    rintro v _ ⟨rfl, h⟩
    exact h.1.visible'
  first := by
    rintro a _ ⟨⟨⟩, h⟩
    exact ⟨congrArg Cell.first (h.1 a .here).2.2.symm, h.of_reaches (.first .here)⟩
  rest := by
    rintro a _ ⟨⟨⟩, h⟩
    exact ⟨congrArg Cell.rest (h.1 a .here).2.2.symm, h.of_reaches (.rest .here)⟩
  lacks := by
    rintro v _ ⟨rfl, h⟩
    exact h.2 v .here

section Sharing

variable {hnames : ∀ binding ∈ extra, ∃ label, binding.1 = .symbol label}
  {bindings bindings' : Bindings}

/-- What is bound to common values is like itself. -/
theorem likeBinding_self (h : ∀ binding ∈ bindings, Common m m' extra binding.1 ∧
    Common m m' extra binding.2) :
    List.Forall₂ (sharing m m' extra hnames).LikeBinding bindings bindings :=
  List.forall₂_same.mpr fun binding hb => ⟨⟨rfl, (h binding hb).1⟩, rfl, (h binding hb).2⟩

theorem eq_of_likeBinding
    (h : List.Forall₂ (sharing m m' extra hnames).LikeBinding bindings bindings') :
    bindings' = bindings ∧
      ∀ binding ∈ bindings, Common m m' extra binding.1 ∧ Common m m' extra binding.2 := by
  have hboth : List.Forall₂ (fun b b' => (Common m m' extra b.1 ∧ Common m m' extra b.2) ∧ b = b')
      bindings bindings' :=
    h.imp fun _ _ hb => ⟨⟨hb.1.2, hb.2.2⟩, Prod.ext hb.1.1 hb.2.1⟩
  obtain ⟨hcommon, heq⟩ := (List.forall₂_and_left _ _).mp hboth
  exact ⟨(List.forall₂_eq_eq_eq ▸ heq : bindings = bindings').symm, hcommon⟩

theorem relates_self {found : Option Value} (h : ∀ v, found = some v → Common m m' extra v) :
    Option.Rel (sharing m m' extra hnames).Like found found := by
  cases found with
  | none => exact .none
  | some v => exact .some ⟨rfl, h v rfl⟩

end Sharing

end Likeness

end DynLisp
