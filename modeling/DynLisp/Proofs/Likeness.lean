/-
  Proofs/Likeness.lean --- values of one memory taken for values of another one.

  WHAT THIS FILE IS FOR.  To say that a program cannot tell two memories apart is to say
  which values of the one it may take for which values of the other.  A `Likeness` says
  so: it goes by what atoms look like and by the halves of pairs, and whatever else it
  goes by is its own affair.  Two memories `Agree` if calls bind like names to like
  values in them, and their global frames hold like bindings in the same order.  How many
  frames the calls have, and what else is bound in those, is left open.

  ROOM FOR MORE.  The second memory may bind some `extra` keys, as long as no value of
  the first is taken for one equal to them.  Such bindings stand wherever there were
  bindings when they were made: what has been bound since is in front of them.

  THE STEPS.  Agreement is kept when a call is entered (`Agree.entered`) and left
  (`Agree.left`), and when a key is bound (`Agree.defined`).
-/
import DynLisp.Proofs.Contents
import DynLisp.Proofs.Frames
import DynLisp.Proofs.Regime
import Mathlib.Data.List.Forall2

set_option autoImplicit false

namespace DynLisp

/-! ## Values that look the same -/

/-- Two atoms look the same, or two values are both pairs. -/
inductive Value.Resembles : Value → Value → Prop where
  | nil : Resembles .nil .nil
  | number (n : Number) : Resembles (.number n) (.number n)
  | string {a b : Label} (h : a.text = b.text) : Resembles (.string a) (.string b)
  | symbol {a b : Label} (h : a.text = b.text) : Resembles (.symbol a) (.symbol b)
  | pair (a b : Nat) : Resembles (.pair a) (.pair b)

namespace Value.Resembles

variable {v w v' w' : Value}

theorem isTruthy_eq (h : v.Resembles w) : v.isTruthy = w.isTruthy := by
  cases h <;> rfl

theorem number?_eq (h : v.Resembles w) : v.number? = w.number? := by
  cases h <;> rfl

theorem symbolName?_eq (h : v.Resembles w) : v.symbolName? = w.symbolName? := by
  cases h with
  | symbol htext => exact congrArg some htext
  | nil | number | string | pair => rfl

theorem equalAtoms_eq (h : v.Resembles w) (h' : v'.Resembles w') :
    v.equalAtoms v' = w.equalAtoms w' := by
  cases h with
  | nil | number | pair => cases h' <;> rfl
  | string htext | symbol htext =>
    cases h' with
    | nil | number | pair => rfl
    | string htext' | symbol htext' => simp only [equalAtoms, htext, htext']

end Value.Resembles

/-! ## Lists of bindings, part by part -/

namespace Bindings

variable {bindings : Bindings} {key v : Value}

theorem assign_append_of_bound (h : ¬ bindings.Lacks key) (after : Bindings) :
    assign (bindings ++ after) key v = assign bindings key v ++ after := by
  rcases assign_cases bindings key v with
    ⟨before, k, w, between, rfl, hequal, hbefore, hassign⟩ | ⟨hlacks, -⟩
  · rw [hassign, List.append_assoc, List.append_assoc]
    exact hbefore.assign_append hequal (between ++ after)
  · exact absurd hlacks h

theorem Lacks.append {after : Bindings} (h : bindings.Lacks key) (h' : after.Lacks key) :
    Lacks (bindings ++ after) key :=
  fun binding hb => (List.mem_append.mp hb).elim (h binding) (h' binding)

theorem Lacks.assign_append_of_bound (h : bindings.Lacks key) {after : Bindings}
    (h' : ¬ after.Lacks key) :
    assign (bindings ++ after) key v = bindings ++ assign after key v := by
  rcases assign_cases after key v with
    ⟨before, k, w, between, rfl, hequal, hbefore, hassign⟩ | ⟨hlacks, -⟩
  · rw [hassign, ← List.append_assoc, ← List.append_assoc]
    exact (h.append hbefore).assign_append hequal between
  · exact absurd hlacks h'

theorem assign_cons_of_equal {k w : Value} (h : k.equalAtoms key = true) (after : Bindings) :
    assign ((k, w) :: after) key v = (k, v) :: after := by
  have hnone : Lacks [] key := by simp [Lacks]
  exact hnone.assign_append h after

theorem assign_cons_of_bound {k w : Value} (h : k.equalAtoms key = false) {after : Bindings}
    (h' : ¬ after.Lacks key) :
    assign ((k, w) :: after) key v = (k, w) :: assign after key v := by
  have hone : Lacks [(k, w)] key := by simpa [Lacks] using h
  exact hone.assign_append_of_bound h'

end Bindings

/-! ## Likenesses -/

/-- Which values of one memory are taken for which values of another one. -/
structure Likeness (m m' : Memory) where
  Like : Value → Value → Prop
  /-- what the second memory binds besides -/
  extra : Bindings
  nil : Like .nil .nil
  number (n : Number) : Like (.number n) (.number n)
  resembles {v w : Value} : Like v w → v.Resembles w
  visible {v w : Value} : Like v w → m.Visible v
  visible' {v w : Value} : Like v w → m'.Visible w
  first {a b : Nat} : Like (.pair a) (.pair b) →
    Like (m.store.cell a).first (m'.store.cell b).first
  rest {a b : Nat} : Like (.pair a) (.pair b) →
    Like (m.store.cell a).rest (m'.store.cell b).rest
  lacks {v w : Value} : Like v w → extra.Lacks w

namespace Likeness

variable {m m' : Memory} (L : Likeness m m')

/-- The keys of two bindings are alike, and so are the values. -/
def LikeBinding (binding binding' : Value × Value) : Prop :=
  L.Like binding.1 binding'.1 ∧ L.Like binding.2 binding'.2

/-- The second bindings are like the first, with the extra ones somewhere among them. -/
def Extends (bindings bindings' : Bindings) : Prop :=
  ∃ newer older newer' older', bindings = newer ++ older ∧
    bindings' = newer' ++ (L.extra ++ older') ∧ List.Forall₂ L.LikeBinding newer newer' ∧
    List.Forall₂ L.LikeBinding older older'

variable {L} {bindings bindings' : Bindings} {key key' v v' : Value}

theorem or_alike {found other found' other' : Option Value}
    (h : Option.Rel L.Like found found') (hother : Option.Rel L.Like other other') :
    Option.Rel L.Like (found.or other) (found'.or other') := by
  cases h with
  | none => exact hother
  | some hlike => exact .some hlike

theorem zip_alike {keys values keys' values' : List Value} (hkeys : List.Forall₂ L.Like keys keys')
    (hvalues : List.Forall₂ L.Like values values') :
    List.Forall₂ L.LikeBinding (keys.zip values) (keys'.zip values') := by
  induction hkeys generalizing values values' with
  | nil => exact .nil
  | cons hkey _ ih =>
    cases hvalues with
    | nil => exact .nil
    | cons hv hmore => exact .cons ⟨hkey, hv⟩ (ih hmore)

theorem value?_alike (h : List.Forall₂ L.LikeBinding bindings bindings')
    (hkey : L.Like key key') :
    Option.Rel L.Like (bindings.value? key) (bindings'.value? key') := by
  induction h with
  | nil => exact .none
  | @cons binding binding' _ _ hbinding _ ih =>
    obtain ⟨k, w⟩ := binding
    obtain ⟨k', w'⟩ := binding'
    have hequal := (L.resembles hbinding.1).equalAtoms_eq (L.resembles hkey)
    rw [Bindings.value?_cons, Bindings.value?_cons]
    dsimp only at hequal
    rw [hequal]
    split
    · exact .some hbinding.2
    · exact ih

theorem lacks_iff (h : List.Forall₂ L.LikeBinding bindings bindings') (hkey : L.Like key key') :
    bindings.Lacks key ↔ bindings'.Lacks key' := by
  have hvalue := value?_alike h hkey
  rw [← Bindings.value?_eq_none_iff, ← Bindings.value?_eq_none_iff]
  generalize bindings.value? key = found at hvalue
  generalize bindings'.value? key' = found' at hvalue
  cases hvalue <;> simp

theorem assign_alike (h : List.Forall₂ L.LikeBinding bindings bindings')
    (hkey : L.Like key key') (hv : L.Like v v') (hbound : ¬ bindings.Lacks key) :
    List.Forall₂ L.LikeBinding (bindings.assign key v) (bindings'.assign key' v') := by
  induction h with
  | nil => exact absurd (by simp [Bindings.Lacks]) hbound
  | @cons binding binding' rest rest' hbinding hrest ih =>
    obtain ⟨k, w⟩ := binding
    obtain ⟨k', w'⟩ := binding'
    have hequal := (L.resembles hbinding.1).equalAtoms_eq (L.resembles hkey)
    dsimp only at hequal
    cases hk : k.equalAtoms key with
    | true =>
      rw [Bindings.assign_cons_of_equal hk, Bindings.assign_cons_of_equal (hequal ▸ hk)]
      exact .cons ⟨hbinding.1, hv⟩ hrest
    | false =>
      have hbound' : ¬ Bindings.Lacks rest key := by
        intro hlacks
        refine hbound fun binding hb => ?_
        rcases List.mem_cons.mp hb with rfl | hb
        · exact hk
        · exact hlacks binding hb
      rw [Bindings.assign_cons_of_bound hk hbound', Bindings.assign_cons_of_bound (hequal ▸ hk)
        (mt (lacks_iff hrest hkey).mpr hbound')]
      exact .cons hbinding (ih hbound')

namespace Extends

theorem value? (h : L.Extends bindings bindings') (hkey : L.Like key key') :
    Option.Rel L.Like (bindings.value? key) (bindings'.value? key') := by
  obtain ⟨newer, older, newer', older', rfl, rfl, hnewer, holder⟩ := h
  have hextra : L.extra.value? key' = none := Bindings.value?_eq_none_iff.mpr (L.lacks hkey)
  rw [Bindings.value?_append, Bindings.value?_append, Bindings.value?_append, hextra,
    Option.none_or]
  exact or_alike (value?_alike hnewer hkey) (value?_alike holder hkey)

/-- A key is bound among the newer bindings, or among the older ones, or in front of all. -/
theorem assign (h : L.Extends bindings bindings') (hkey : L.Like key key') (hv : L.Like v v') :
    L.Extends (bindings.assign key v) (bindings'.assign key' v') := by
  obtain ⟨newer, older, newer', older', rfl, rfl, hnewer, holder⟩ := h
  have hextra := L.lacks hkey
  by_cases hnew : newer.Lacks key
  · have hnew' := (lacks_iff hnewer hkey).mp hnew
    by_cases hold : older.Lacks key
    · have hold' := (lacks_iff holder hkey).mp hold
      rw [(hnew.append hold).assign_eq, (hnew'.append (hextra.append hold')).assign_eq]
      exact ⟨(key, v) :: newer, older, (key', v') :: newer', older', rfl, rfl,
        .cons ⟨hkey, hv⟩ hnewer, holder⟩
    · have hold' := mt (lacks_iff holder hkey).mpr hold
      rw [hnew.assign_append_of_bound hold, ← List.append_assoc,
        (hnew'.append hextra).assign_append_of_bound hold', List.append_assoc]
      exact ⟨newer, _, newer', _, rfl, rfl, hnewer, assign_alike holder hkey hv hold⟩
  · have hnew' := mt (lacks_iff hnewer hkey).mpr hnew
    rw [Bindings.assign_append_of_bound hnew, Bindings.assign_append_of_bound hnew']
    exact ⟨_, older, _, older', rfl, rfl, assign_alike hnewer hkey hv hnew, holder⟩

end Extends

/-- Where there is nothing extra, the bindings are like each other one by one. -/
theorem extends_iff_of_nil (hextra : L.extra = []) :
    L.Extends bindings bindings' ↔ List.Forall₂ L.LikeBinding bindings bindings' := by
  constructor
  · rintro ⟨newer, older, newer', older', rfl, rfl, hnewer, holder⟩
    rw [hextra, List.nil_append]
    exact List.rel_append hnewer holder
  · intro h
    exact ⟨[], bindings, [], bindings', rfl, by rw [hextra]; rfl, .nil, h⟩

end Likeness

/-! ## What calls bind -/

namespace Memory

/-- What the innermost call that binds a key binds it to. -/
def calledValue (m : Memory) (key : Value) : Option Value :=
  m.scopes.calls.findSome? fun bindings => bindings.value? key

variable {m m' : Memory}

theorem lookup_eq_or (m : Memory) (key : Value) :
    m.lookup key = (m.calledValue key).or (Bindings.value? m.globalBindings key) := by
  rw [lookup_eq_scopes, Scopes.lookup, List.findSome?_append, List.findSome?_singleton]
  rfl

/-- Evaluation leaves what the calls around it bind as it was. -/
theorem Valid.scopes_calls_eq (h : m.Valid) (hm : m.Evolves m') :
    m'.scopes.calls = m.scopes.calls := by
  show m'.environment.calls.map _ = m.environment.calls.map _
  rw [hm.calls]
  exact List.map_congr_left fun frame hframe => h.bindings_eq hm.toSpares hframe

theorem Valid.calledValue_eq (h : m.Valid) (hm : m.Evolves m') (key : Value) :
    m'.calledValue key = m.calledValue key := by
  rw [calledValue, calledValue, h.scopes_calls_eq hm]

/-- A call binds its parameters to its arguments, one by one. -/
theorem Valid.scopes_entered (h : m.Valid) {parameters : Value} (hparameters : m.Visible parameters)
    (arguments : List Value) :
    (m.entered parameters arguments).scopes =
      { m.scopes with calls :=
          (m.store.elements parameters).zip arguments :: m.scopes.calls } := by
  have hgrows := m.grows_list arguments
  have hscopes := h.scopes_eq_of_grows hgrows
  have hframe : Frame.bindings ⟨parameters, ((Store.list arguments).run m.store).1⟩
      ((Store.list arguments).run m.store).2 = (m.store.elements parameters).zip arguments := by
    unfold Frame.bindings
    rw [(hgrows.evolves h).toSpares.elements_eq h hparameters, Store.elements_list]
  rw [← hframe, ← hscopes]
  rfl

theorem Valid.calledValue_entered (h : m.Valid) {parameters : Value}
    (hparameters : m.Visible parameters) (arguments : List Value) (key : Value) :
    (m.entered parameters arguments).calledValue key =
      (Bindings.value? ((m.store.elements parameters).zip arguments) key).or
        (m.calledValue key) := by
  rw [calledValue, h.scopes_entered hparameters, List.findSome?_cons]
  cases Bindings.value? ((m.store.elements parameters).zip arguments) key <;> rfl

theorem Valid.elements_pair (h : m.Valid) {a : Nat} (ha : m.Visible (.pair a)) :
    m.store.elements (.pair a) =
      (m.store.cell a).first :: m.store.elements (m.store.cell a).rest := by
  have hrest := h.chain (h.cell_visible a ha).2
  rw [(Store.Chain.link ha.1 hrest).elements_eq, hrest.elements_eq]
  rfl

end Memory

/-! ## Memories that agree -/

namespace Likeness

open Memory

variable {m m' : Memory}

/-- Two memories that have come of those of a likeness: calls bind like names to like values, and
the global frames hold like bindings. -/
structure Agree (L : Likeness m m') (n n' : Memory) : Prop where
  valid : n.Valid
  valid' : n'.Valid
  spares : m.Spares n
  spares' : m'.Spares n'
  calls : ∀ label label', L.Like (.symbol label) (.symbol label') →
    Option.Rel L.Like (n.calledValue (.symbol label)) (n'.calledValue (.symbol label'))
  globals : L.Extends n.globalBindings n'.globalBindings

namespace Agree

variable {L : Likeness m m'} {n n' : Memory} {v w : Value}

section Looking

variable (h : L.Agree n n')
include h

theorem visible (hv : L.Like v w) : n.Visible v := h.spares.visible (L.visible hv)

theorem visible' (hv : L.Like v w) : n'.Visible w := h.spares'.visible (L.visible' hv)

theorem all_visible {items items' : List Value} (hitems : List.Forall₂ L.Like items items') :
    ∀ item ∈ items, n.Visible item :=
  ((List.forall₂_and_left _ _).mp (hitems.imp fun _ _ hlike => ⟨h.visible hlike, hlike⟩)).1

theorem all_visible' {items items' : List Value} (hitems : List.Forall₂ L.Like items items') :
    ∀ item ∈ items', n'.Visible item := by
  have hflip : List.Forall₂ (fun w v => L.Like v w) items' items := hitems.flip
  exact ((List.forall₂_and_left _ _).mp (hflip.imp fun _ _ hlike => ⟨h.visible' hlike, hlike⟩)).1

/-- Like values keep their halves, which are alike. -/
theorem halves {a b : Nat} (hv : L.Like (.pair a) (.pair b)) :
    L.Like (n.store.cell a).first (n'.store.cell b).first ∧
      L.Like (n.store.cell a).rest (n'.store.cell b).rest := by
  rw [(h.spares.cells a (L.visible hv)).2, (h.spares'.cells b (L.visible' hv)).2]
  exact ⟨L.first hv, L.rest hv⟩

theorem first (hv : L.Like v w) : L.Like (n.store.first v) (n'.store.first w) := by
  cases L.resembles hv with
  | pair a b => exact (h.halves hv).1
  | nil | number | string | symbol => exact L.nil

theorem rest (hv : L.Like v w) : L.Like (n.store.rest v) (n'.store.rest w) := by
  cases L.resembles hv with
  | pair a b => exact (h.halves hv).2
  | nil | number | string | symbol => exact L.nil

theorem second (hv : L.Like v w) : L.Like (n.store.second v) (n'.store.second w) :=
  h.first (h.rest hv)

theorem third (hv : L.Like v w) : L.Like (n.store.third v) (n'.store.third w) :=
  h.first (h.rest (h.rest hv))

theorem elements (hv : L.Like v w) :
    List.Forall₂ L.Like (n.store.elements v) (n'.store.elements w) := by
  -- The two chains are walked side by side, since like values are both pairs or neither.
  have hchain := h.valid.chain (h.visible hv)
  generalize n.store.links v = links at hchain
  generalize n.store.tail v = last at hchain
  induction hchain generalizing w with
  | @stop v hatom =>
    have hatom' : ∀ b, w ≠ .pair b := by
      rintro b rfl
      cases L.resembles hv with
      | pair a _ => exact hatom a rfl
    rw [(Store.Chain.stop hatom).elements_eq, (Store.Chain.stop hatom').elements_eq]
    exact .nil
  | @link a links last ha hrest ih =>
    obtain ⟨b, rfl⟩ : ∃ b, w = .pair b := by
      cases L.resembles hv with
      | pair _ b => exact ⟨b, rfl⟩
    rw [h.valid.elements_pair (h.visible hv), h.valid'.elements_pair (h.visible' hv)]
    exact .cons (h.halves hv).1 (ih (h.halves hv).2)

theorem isLambda_eq (hv : L.Like v w) : n.store.isLambda v = n'.store.isLambda w := by
  unfold Store.isLambda Value.isSymbolNamed
  rw [(L.resembles (h.first hv)).symbolName?_eq]

theorem shows {datum : Datum} (hv : L.Like v w) (hshows : n.store.Shows v datum) :
    n'.store.Shows w datum := by
  induction hshows generalizing w with
  | nil =>
    cases L.resembles hv
    exact .nil
  | number n =>
    cases L.resembles hv
    exact .number n
  | string label =>
    cases L.resembles hv with
    | string htext =>
      rw [htext]
      exact .string _
  | symbol label =>
    cases L.resembles hv with
    | symbol htext =>
      rw [htext]
      exact .symbol _
  | pair ha _ _ ihfirst ihrest =>
    cases L.resembles hv with
    | pair _ b =>
      obtain ⟨hfirst, hrest⟩ := h.halves hv
      exact .pair (h.visible' hv).1 (ihfirst hfirst) (ihrest hrest)

/-- Like values show the same. -/
theorem content_eq (hv : L.Like v w) : n.store.content v = n'.store.content w :=
  (h.shows hv (h.valid.shows (h.visible hv))).content_eq.symm

theorem lookup {label label' : Label} (hname : L.Like (.symbol label) (.symbol label')) :
    Option.Rel L.Like (n.lookup (.symbol label)) (n'.lookup (.symbol label')) := by
  rw [lookup_eq_or, lookup_eq_or]
  exact or_alike (h.calls label label' hname) (h.globals.value? hname)

end Looking

theorem entered (h : L.Agree n n') {parameters parameters' : Value}
    {arguments arguments' : List Value} (hparameters : L.Like parameters parameters')
    (harguments : List.Forall₂ L.Like arguments arguments') :
    L.Agree (n.entered parameters arguments) (n'.entered parameters' arguments') := by
  have hseen := h.visible hparameters
  have hseen' := h.visible' hparameters
  have hlist := h.valid.list (h.all_visible harguments)
  have hlist' := h.valid'.list (h.all_visible' harguments)
  constructor
  case valid => exact hlist.valid.push (hlist.evolves.visible hseen) hlist.visible
  case valid' => exact hlist'.valid.push (hlist'.evolves.visible hseen') hlist'.visible
  case spares => exact h.spares.trans (h.valid.spares_entered _ _)
  case spares' => exact h.spares'.trans (h.valid'.spares_entered _ _)
  case calls =>
    intro label label' hname
    have hcalls := h.calls label label' hname
    have hframe := value?_alike (zip_alike (h.elements hparameters) harguments) hname
    rw [h.valid.calledValue_entered hseen, h.valid'.calledValue_entered hseen']
    exact or_alike hframe hcalls
  case globals =>
    have hscopes := congrArg Scopes.globals (h.valid.scopes_entered hseen arguments)
    have hscopes' := congrArg Scopes.globals (h.valid'.scopes_entered hseen' arguments')
    show L.Extends (scopes _).globals (scopes _).globals
    rw [hscopes, hscopes']
    exact h.globals

/-- What becomes of two memories in two calls, seen from outside of them. -/
theorem left (h : L.Agree n n') {parameters parameters' : Value}
    {arguments arguments' : List Value} {inner inner' : Memory} (hinner : L.Agree inner inner')
    (hn : (n.entered parameters arguments).Evolves inner)
    (hn' : (n'.entered parameters' arguments').Evolves inner') :
    L.Agree inner.pop inner'.pop where
  valid := hinner.valid.pop
  valid' := hinner.valid'.pop
  spares := hinner.spares.trans inner.spares_pop
  spares' := hinner.spares'.trans inner'.spares_pop
  calls label label' hname := by
    rw [h.valid.calledValue_eq (h.valid.evolves_left hn),
      h.valid'.calledValue_eq (h.valid'.evolves_left hn')]
    exact h.calls label label' hname
  globals := hinner.globals

theorem defined (h : L.Agree n n') {key key' : Value} (hkey : L.Like key key')
    (hv : L.Like v w) : L.Agree (n.defined key v) (n'.defined key' w) := by
  have hyields := h.valid.defined (h.visible hkey) (h.visible hv)
  have hyields' := h.valid'.defined (h.visible' hkey) (h.visible' hv)
  constructor
  case valid => exact hyields.valid
  case valid' => exact hyields'.valid
  case spares => exact h.spares.trans hyields.evolves.toSpares
  case spares' => exact h.spares'.trans hyields'.evolves.toSpares
  case calls =>
    intro label label' hname
    rw [h.valid.calledValue_eq hyields.evolves, h.valid'.calledValue_eq hyields'.evolves]
    exact h.calls label label' hname
  case globals =>
    rw [h.valid.globalBindings_defined, h.valid'.globalBindings_defined]
    exact h.globals.assign hkey hv

end Agree

end Likeness

end DynLisp
