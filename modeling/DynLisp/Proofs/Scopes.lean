/-
  Proofs/Scopes.lean --- scopes as association lists.

  WHAT THIS FILE IS FOR.  `Scopes` is what one may think of in place of an environment
  and its cells: a stack of association lists on top of one map of the global names,
  the newest name first.  Here are its events, and what a definition does to what a
  key means.

  WHEN KEYS ARE EQUAL.  Among all but pairs, `equalAtoms` is an equivalence, and
  everything said here of keys is up to it.  A pair is equal to nothing, itself
  included, so to define one always makes a new binding, which is never found.
-/
import DynLisp.Proofs.Bindings

set_option autoImplicit false

namespace DynLisp

/-! ## Equal keys -/

namespace Number

theorem equal_self (n : Number) : n.equal n = true := by
  cases n <;> simp [equal]

theorem equal_comm (m n : Number) : m.equal n = n.equal m := by
  cases m <;> cases n <;> simp only [equal]
  case integer.integer => exact Bool.eq_iff_iff.mpr (by simp [eq_comm])
  case double.double x y => rw [Bool.and_comm, decide_eq_decide.mpr (eq_comm (a := x) (b := y))]

theorem equal_trans {k m n : Number} (h : k.equal m = true) (h' : m.equal n = true) :
    k.equal n = true := by
  cases k <;> cases m <;> cases n <;> simp only [equal, Bool.or_eq_true, Bool.and_eq_true,
    decide_eq_true_eq, Bool.false_eq_true] at h h' ⊢
  case integer.integer.integer => exact h.trans h'
  case double.double.double =>
    rcases h with rfl | ⟨hx, hy⟩
    · exact h'
    · rcases h' with rfl | ⟨-, hz⟩
      · exact .inr ⟨hx, hy⟩
      · exact .inr ⟨hx, hz⟩

end Number

namespace Value

theorem equalAtoms_self {v : Value} (hv : ∀ a, v ≠ .pair a) : v.equalAtoms v = true := by
  cases v with
  | nil => rfl
  | number n => exact n.equal_self
  | string | symbol => simp [equalAtoms]
  | pair a => exact absurd rfl (hv a)

theorem equalAtoms_comm (v w : Value) : v.equalAtoms w = w.equalAtoms v := by
  cases v <;> cases w <;> simp only [equalAtoms]
  case number.number m n => exact m.equal_comm n
  case string.string | symbol.symbol => exact Bool.eq_iff_iff.mpr (by simp [eq_comm])

theorem equalAtoms_trans {u v w : Value} (h : u.equalAtoms v = true)
    (h' : v.equalAtoms w = true) : u.equalAtoms w = true := by
  cases u <;> cases v <;> cases w <;>
    simp only [equalAtoms, decide_eq_true_eq, Bool.false_eq_true] at h h' ⊢
  case number.number.number => exact Number.equal_trans h h'
  case string.string.string | symbol.symbol.symbol => exact h.trans h'

/-- A value is equal to either both of two equal ones or none of them. -/
theorem equalAtoms_congr {u v : Value} (h : u.equalAtoms v = true) (w : Value) :
    u.equalAtoms w = v.equalAtoms w := by
  have h' : v.equalAtoms u = true := (equalAtoms_comm v u).trans h
  exact Bool.eq_iff_iff.mpr ⟨equalAtoms_trans h', equalAtoms_trans h⟩

theorem equalAtoms_pair (v : Value) (a : Nat) : v.equalAtoms (.pair a) = false := by
  cases v <;> rfl

end Value

/-! ## Association lists -/

namespace Bindings

/-- What the first key equal to a given one is bound to. -/
def value? (bindings : Bindings) (key : Value) : Option Value :=
  (bindings.find? fun binding => binding.1.equalAtoms key).map Prod.snd

/-- None of the keys is equal to a given one. -/
def Lacks (bindings : Bindings) (key : Value) : Prop :=
  ∀ binding ∈ bindings, binding.1.equalAtoms key = false

/-- No two of the keys are equal. -/
def Distinct (bindings : Bindings) : Prop :=
  (bindings.map Prod.fst).Pairwise fun k k' => k.equalAtoms k' = false

variable {bindings : Bindings} {key v : Value}

theorem value?_eq_some_iff :
    value? bindings key = some v ↔ ∃ before k after, bindings = before ++ (k, v) :: after ∧
      k.equalAtoms key = true ∧ Lacks before key := by
  unfold value? Lacks
  rw [Option.map_eq_some_iff]
  constructor
  · rintro ⟨⟨k, w⟩, hfind, rfl⟩
    obtain ⟨hequal, before, after, hsplit, hbefore⟩ := List.find?_eq_some_iff_append.mp hfind
    exact ⟨before, k, after, hsplit, hequal, fun b hb => by simpa using hbefore b hb⟩
  · rintro ⟨before, k, after, hsplit, hequal, hbefore⟩
    refine ⟨(k, v), ?_, rfl⟩
    exact List.find?_eq_some_iff_append.mpr
      ⟨hequal, before, after, hsplit, fun b hb => by simpa using hbefore b hb⟩

theorem value?_eq_none_iff : value? bindings key = none ↔ Lacks bindings key := by
  unfold value? Lacks
  rw [Option.map_eq_none_iff, List.find?_eq_none]
  simp only [Bool.not_eq_true]

theorem value?_cons (k w key : Value) :
    value? ((k, w) :: bindings) key =
      if k.equalAtoms key then some w else value? bindings key := by
  unfold value?
  rw [List.find?_cons]
  cases k.equalAtoms key <;> rfl

theorem value?_append (before after : Bindings) (key : Value) :
    value? (before ++ after) key = (value? before key).or (value? after key) := by
  unfold value?
  rw [List.find?_append, Option.map_or]

theorem lacks_pair (bindings : Bindings) (a : Nat) : Lacks bindings (.pair a) :=
  fun binding _ => binding.1.equalAtoms_pair a

theorem Lacks.assign_eq (h : Lacks bindings key) :
    assign bindings key v = (key, v) :: bindings := by
  have hslot : slotOf? bindings key = none := List.findIdx?_eq_none_iff.mpr h
  unfold assign
  rw [hslot]

theorem Lacks.assign_append (h : Lacks bindings key) {k w : Value}
    (hequal : k.equalAtoms key = true) (after : Bindings) :
    assign (bindings ++ (k, w) :: after) key v = bindings ++ (k, v) :: after := by
  have hslot : slotOf? (bindings ++ (k, w) :: after) key = some bindings.length := by
    unfold slotOf?
    rw [List.findIdx?_append, List.findIdx?_eq_none_iff.mpr h, List.findIdx?_cons, hequal]
    simp
  unfold assign
  rw [hslot]
  exact List.modifyTailIdx_add _ 0 bindings _

/-- A key is bound already, and its first binding gets the value, or it gets a new one. -/
theorem assign_cases (bindings : Bindings) (key v : Value) :
    (∃ before k w after, bindings = before ++ (k, w) :: after ∧ k.equalAtoms key = true ∧
      Lacks before key ∧ assign bindings key v = before ++ (k, v) :: after) ∨
    (Lacks bindings key ∧ assign bindings key v = (key, v) :: bindings) := by
  cases hvalue : value? bindings key with
  | none =>
    have hlacks := value?_eq_none_iff.mp hvalue
    exact .inr ⟨hlacks, hlacks.assign_eq⟩
  | some w =>
    obtain ⟨before, k, after, rfl, hequal, hbefore⟩ := value?_eq_some_iff.mp hvalue
    exact .inl ⟨before, k, w, after, rfl, hequal, hbefore, hbefore.assign_append hequal after⟩

theorem value?_assign_self (hkey : ∀ a, key ≠ .pair a) :
    value? (assign bindings key v) key = some v := by
  rcases assign_cases bindings key v with
    ⟨before, k, w, after, rfl, hequal, hbefore, hassign⟩ | ⟨-, hassign⟩
  · rw [hassign, value?_append, value?_cons, hequal, value?_eq_none_iff.mpr hbefore]
    rfl
  · rw [hassign, value?_cons, Value.equalAtoms_self hkey]
    rfl

theorem value?_assign_of_ne {other : Value} (hne : key.equalAtoms other = false) :
    value? (assign bindings key v) other = value? bindings other := by
  rcases assign_cases bindings key v with
    ⟨before, k, w, after, rfl, hequal, hbefore, hassign⟩ | ⟨-, hassign⟩
  · have hk : k.equalAtoms other = false := (Value.equalAtoms_congr hequal other).trans hne
    rw [hassign, value?_append, value?_append, value?_cons, value?_cons, hk]
    rfl
  · rw [hassign, value?_cons, hne]
    rfl

theorem value?_assignAll_of_ne {writes : Bindings}
    (hne : ∀ write ∈ writes, write.1.equalAtoms key = false) :
    value? (assignAll bindings writes) key = value? bindings key := by
  induction writes generalizing bindings with
  | nil => rfl
  | cons write later ih =>
    obtain ⟨hwrite, hlater⟩ := List.forall_mem_cons.mp hne
    exact (ih hlater).trans (value?_assign_of_ne hwrite)

/-- No other key than the first one that is equal is equal. -/
theorem Distinct.lacks {before after : Bindings} {k w : Value}
    (h : Distinct (before ++ (k, w) :: after)) (hequal : k.equalAtoms key = true) :
    Lacks before key := by
  intro binding hbinding
  unfold Distinct at h
  rw [List.map_append, List.map_cons, List.pairwise_append] at h
  calc binding.1.equalAtoms key
      = key.equalAtoms binding.1 := Value.equalAtoms_comm _ _
    _ = k.equalAtoms binding.1 := (Value.equalAtoms_congr hequal binding.1).symm
    _ = binding.1.equalAtoms k := Value.equalAtoms_comm _ _
    _ = false := h.2.2 binding.1 (List.mem_map_of_mem hbinding) k List.mem_cons_self

theorem Distinct.assign (h : Distinct bindings) (key v : Value) :
    Distinct (assign bindings key v) := by
  rcases assign_cases bindings key v with
    ⟨before, k, w, after, rfl, -, -, hassign⟩ | ⟨hlacks, hassign⟩
  · rw [hassign]
    unfold Distinct at h ⊢
    simpa only [List.map_append, List.map_cons] using h
  · rw [hassign]
    refine List.pairwise_cons.mpr ⟨?_, h⟩
    intro k' hk'
    obtain ⟨binding, hbinding, rfl⟩ := List.mem_map.mp hk'
    rw [Value.equalAtoms_comm]
    exact hlacks binding hbinding

end Bindings

/-! ## Scopes -/

/-- The bindings of the global frame, and those of the calls going on, innermost first. -/
structure Scopes where
  globals : Bindings := []
  calls : List Bindings := []

namespace Scopes

/-- What a key is bound to: by the innermost call that binds it, else globally. -/
def lookup (scopes : Scopes) (key : Value) : Option Value :=
  (scopes.calls ++ [scopes.globals]).findSome? fun bindings => bindings.value? key

/-- What can happen to the scopes. -/
inductive Event where
  | push (bindings : Bindings)
  | pop
  | define (key v : Value)
  | lookup (key : Value)

/-- What happens, and the values that are told. -/
def Event.happen : Event → StateM Scopes (List (Option Value))
  | push bindings => do
    modify fun scopes => { scopes with calls := bindings :: scopes.calls }
    return []
  | pop => do
    modify fun scopes => { scopes with calls := scopes.calls.tail }
    return []
  | define key v => do
    modify fun scopes => { scopes with globals := scopes.globals.assign key v }
    return [some v]
  | lookup key => return [(← get).lookup key]

/-- Some events in order, and all the values that are told. -/
def happenAll : List Event → StateM Scopes (List (Option Value))
  | [] => return []
  | event :: more => do
    let told ← event.happen
    return told ++ (← happenAll more)

variable {scopes : Scopes} {key v : Value}

/-- The value is what the first equal key is bound to, in the innermost scope that has one. -/
def Means (scopes : Scopes) (key v : Value) : Prop :=
  ∃ (inner : List Bindings) (bindings : Bindings) (outer : List Bindings),
    scopes.calls ++ [scopes.globals] = inner ++ bindings :: outer ∧
      (∀ other ∈ inner, other.Lacks key) ∧
      ∃ before k after, bindings = before ++ (k, v) :: after ∧ k.equalAtoms key = true ∧
        Bindings.Lacks before key

theorem lookup_eq_some_iff : scopes.lookup key = some v ↔ scopes.Means key v := by
  unfold lookup Means
  rw [List.findSome?_eq_some_iff]
  constructor
  · rintro ⟨inner, bindings, outer, hsplit, hvalue, hinner⟩
    exact ⟨inner, bindings, outer, hsplit,
      fun other hother => Bindings.value?_eq_none_iff.mp (hinner other hother),
      Bindings.value?_eq_some_iff.mp hvalue⟩
  · rintro ⟨inner, bindings, outer, hsplit, hinner, hvalue⟩
    exact ⟨inner, bindings, outer, hsplit, Bindings.value?_eq_some_iff.mpr hvalue,
      fun other hother => Bindings.value?_eq_none_iff.mpr (hinner other hother)⟩

/-- A definition is seen where no call binds the key. -/
theorem lookup_defined_of_lacks (hkey : ∀ a, key ≠ .pair a)
    (hcalls : ∀ bindings ∈ scopes.calls, bindings.Lacks key) :
    lookup { scopes with globals := scopes.globals.assign key v } key = some v := by
  unfold lookup
  have hnone : (scopes.calls.findSome? fun bindings => bindings.value? key) = none := by
    rw [List.findSome?_eq_none_iff]
    exact fun bindings hbindings => Bindings.value?_eq_none_iff.mpr (hcalls bindings hbindings)
  rw [List.findSome?_append, hnone, List.findSome?_singleton, Bindings.value?_assign_self hkey]
  rfl

/-- The global frame does not matter where a call binds the key. -/
theorem lookup_congr_of_bound {scopes' : Scopes} (hcalls : scopes'.calls = scopes.calls)
    (hbound : ∃ bindings ∈ scopes.calls, ¬ bindings.Lacks key) :
    scopes'.lookup key = scopes.lookup key := by
  obtain ⟨bindings, hbindings, hkey⟩ := hbound
  have hsome : (scopes.calls.findSome? fun bindings => bindings.value? key) ≠ none := by
    intro hnone
    exact hkey (Bindings.value?_eq_none_iff.mp (List.findSome?_eq_none_iff.mp hnone _ hbindings))
  obtain ⟨w, hw⟩ := Option.ne_none_iff_exists'.mp hsome
  unfold lookup
  rw [hcalls, List.findSome?_append, List.findSome?_append, hw]
  rfl

theorem lookup_congr {scopes' : Scopes} (hcalls : scopes'.calls = scopes.calls)
    (hglobals : scopes'.globals.value? key = scopes.globals.value? key) :
    scopes'.lookup key = scopes.lookup key := by
  unfold lookup
  rw [hcalls, List.findSome?_append, List.findSome?_append, List.findSome?_singleton,
    List.findSome?_singleton, hglobals]

/-- The scopes after some definitions. -/
def defining (scopes : Scopes) (writes : Bindings) : Scopes :=
  { scopes with globals := scopes.globals.assignAll writes }

theorem defining_defining (scopes : Scopes) (writes later : Bindings) :
    (scopes.defining writes).defining later = scopes.defining (writes ++ later) :=
  congrArg (Scopes.mk · scopes.calls) List.foldl_append.symm

theorem happenAll_append (before after : List Event) (scopes : Scopes) :
    (happenAll (before ++ after)).run scopes =
      (((happenAll before).run scopes).1 ++
          ((happenAll after).run ((happenAll before).run scopes).2).1,
        ((happenAll after).run ((happenAll before).run scopes).2).2) := by
  induction before generalizing scopes with
  | nil => rfl
  | cons event more ih =>
    rw [List.cons_append]
    simp only [happenAll, run_bind, run_pure, ih, List.append_assoc]

/-- Events keep the global keys apart. -/
theorem distinct_happenAll (events : List Event) {scopes : Scopes}
    (h : scopes.globals.Distinct) : ((happenAll events).run scopes).2.globals.Distinct := by
  induction events generalizing scopes with
  | nil => exact h
  | cons event more ih =>
    cases event with
    | push | pop | lookup => exact ih h
    | define key v => exact ih (h.assign key v)

end Scopes

end DynLisp
