/-
  Proofs/Heights.lean --- without functions, evaluation goes no deeper than its expression.

  WHAT THIS FILE IS FOR.  The reader counts how deep forms are nested, and evaluation how
  deep it has gone.  Only calls of functions tie a large depth to a small expression: every
  other form evaluates elements of its own, or of its clauses, which are less high than it
  is (`Datum.height`).  So where no function can be called, a limit above the height of an
  expression is never hit, and what the reader lets through has a height below its own
  limit.

  NO FUNCTION APPEARS.  Evaluation must not come by a function on its way.  The values that
  it handles are `Inert`: they may hold functions, but are none.  What is bound stays inert
  (`Memory.Tame`), and whatever a form evaluates is a part of an expression in which there is
  no function at all (`Memory.Plain`).
-/
import DynLisp.Proofs.Contents
import DynLisp.Proofs.Coverage
import DynLisp.Proofs.Frames
import DynLisp.Proofs.Lines
import DynLisp.Proofs.RoundTrip
import DynLisp.Proofs.Separation

set_option autoImplicit false

namespace DynLisp

open Evaluation

/-! ## Heights of data -/

namespace Datum

/-- The elements of a list, and of whatever else is made of cells. -/
def elements : Datum → List Datum
  | cons first rest => first :: rest.elements
  | _ => []

/-- How deep a datum is nested: one deeper than the deepest of its elements. -/
def height : Datum → Nat
  | cons first rest => max (first.height + 1) rest.height
  | _ => 0

/-- The datum has no cell that holds the name of functions in front. -/
def LambdaFree : Datum → Prop
  | cons first rest => first ≠ symbol Store.lambdaName ∧ first.LambdaFree ∧ rest.LambdaFree
  | _ => True

/-- To look for the name of functions in front of every cell. -/
def decideLambdaFree : (datum : Datum) → Decidable datum.LambdaFree
  | cons first rest =>
    have := decideLambdaFree first
    have := decideLambdaFree rest
    inferInstanceAs (Decidable (first ≠ symbol Store.lambdaName ∧ _ ∧ _))
  | nil | number _ | string _ | symbol _ => inferInstanceAs (Decidable True)

instance : DecidablePred LambdaFree := decideLambdaFree

theorem height_cons_eq (first rest : Datum) :
    (cons first rest).height =
      1 + ((cons first rest).elements.map height).foldr max 0 := by
  induction rest generalizing first with
  | nil | number | string | symbol => simp only [height, elements, List.map, List.foldr]; omega
  | cons second rest _ ih =>
    have hrest := ih second
    have hmore : ((cons first (cons second rest)).elements.map height).foldr max 0 =
        max first.height (((cons second rest).elements.map height).foldr max 0) := rfl
    rw [height, hrest, hmore]
    omega

/-- The items of a list bound its height. -/
theorem height_ofList_le {room : Nat} {items : List Datum}
    (h : ∀ item ∈ items, item.height < room) : (ofList items).height ≤ room := by
  induction items with
  | nil => exact Nat.zero_le room
  | cons item more ih =>
    obtain ⟨hitem, hmore⟩ := List.forall_mem_cons.mp h
    exact Nat.max_le.mpr ⟨hitem, ih hmore⟩

theorem height_ofWord (word : String) : (ofWord word).height = 0 := by
  rcases ofWord_cases word with ⟨n, hword⟩ | hword <;> rw [hword] <;> rfl

end Datum

namespace Reader

/-- A list is at most as high as there is room for its items. -/
theorem height_le_of_items {form : (tokens : List Token) → Reading (tokens.length - 1)} {room : Nat}
    (hform : ∀ tokens datum, (form tokens).outcome = .ok datum → datum.height < room)
    {read : List Datum} {tokens : List Token} (hread : ∀ item ∈ read, item.height < room)
    {datum : Datum} (h : (items form read tokens).outcome = .ok datum) : datum.height ≤ room := by
  fun_induction items form read tokens with
  | case1 => simp [Reading.outcome] at h
  | case2 read rest =>
    obtain rfl : Datum.ofList read.reverse = datum := Except.ok.inj h
    exact Datum.height_ofList_le fun item hitem => hread item (List.mem_reverse.mp hitem)
  | case3 => simp [Reading.outcome] at h
  | case4 read token more _ item rest fits hitem ih =>
    rw [Reading.outcome_widen] at h
    have hnew := hform (token :: more) item (by rw [hitem, Reading.outcome])
    exact ih (List.forall_mem_cons.mpr ⟨hnew, hread⟩) h

/-- What is read is less high than there was room. -/
theorem height_lt_of_form (room : Nat) {tokens : List Token} {datum : Datum}
    (h : (form room tokens).outcome = .ok datum) : datum.height < room := by
  induction room generalizing tokens datum with
  | zero => simp [form, Reading.outcome] at h
  | succ room ih =>
    cases tokens with
    | nil =>
      obtain rfl : Datum.nil = datum := Except.ok.inj h
      exact Nat.zero_lt_succ room
    | cons token rest =>
      cases token with
      | closing => simp [form, Reading.outcome] at h
      | string content =>
        obtain rfl : Datum.string content = datum := Except.ok.inj h
        exact Nat.zero_lt_succ room
      | word text =>
        obtain rfl : Datum.ofWord text = datum := Except.ok.inj h
        rw [Datum.height_ofWord]
        exact Nat.zero_lt_succ room
      | opening =>
        rw [form] at h
        exact Nat.lt_succ_of_le (height_le_of_items (fun _ _ => ih) (by simp) h)
      | quote =>
        unfold form at h
        split at h
        · rename_i inner left fits hinner
          obtain rfl : Datum.quoted inner = datum := Except.ok.inj h
          have hlt : inner.height < room := ih (by rw [hinner, Reading.outcome])
          refine Nat.lt_succ_of_le (Datum.height_ofList_le ?_)
          simpa [Datum.height] using ⟨Nat.zero_lt_of_lt hlt, hlt⟩
        · simp [Reading.outcome] at h

end Reader

theorem Token.Stream.height_lt_of_readStrictly {stream : Token.Stream} {datum : Datum}
    (h : stream.readStrictly.1 = .ok datum) : datum.height < Reader.nestingLimit :=
  Reader.height_lt_of_form Reader.nestingLimit (outcome_form h)

/-! ## Values that are no functions -/

namespace Store

variable {s : Store} {v : Value}

theorem isLambda_of_atom (s : Store) (hv : ∀ a, v ≠ .pair a) : s.isLambda v = false := by
  cases v with
  | pair a => exact absurd rfl (hv a)
  | nil | number | string | symbol => rfl

theorem content_of_isSymbolNamed {name : String} (h : v.isSymbolNamed name = true) :
    s.content v = .symbol name := by
  cases v with
  | symbol label =>
    obtain rfl : label.text = name := by simpa [Value.isSymbolNamed, Value.symbolName?] using h
    exact (Shows.symbol label).content_eq
  | nil | number | string | pair => simp [Value.isSymbolNamed, Value.symbolName?] at h

end Store

namespace Memory

variable {m n : Memory} {v : Value}

/-- The value can be seen, and is no function.  It may hold some. -/
structure Inert (m : Memory) (v : Value) : Prop where
  visible : m.Visible v
  isLambda_eq : m.store.isLambda v = false

/-- No frame binds a name to a function. -/
def BindsNoFunction (m : Memory) : Prop :=
  ∀ bindings ∈ m.scopes.calls ++ [m.scopes.globals], ∀ binding ∈ bindings,
    m.store.isLambda binding.2 = false

instance (m : Memory) : Decidable m.BindsNoFunction :=
  inferInstanceAs (Decidable (∀ bindings ∈ _, ∀ binding ∈ bindings, _ = false))

/-- The memory is valid, and no function is bound in it. -/
structure Tame (m : Memory) : Prop where
  valid : m.Valid
  bound : m.BindsNoFunction

theorem Inert.of_atom (m : Memory) (hv : ∀ a, v ≠ .pair a) : m.Inert v := by
  refine ⟨?_, m.store.isLambda_of_atom hv⟩
  cases v with
  | pair a => exact absurd rfl (hv a)
  | nil | number | string | symbol => trivial

theorem Spares.isLambda_eq (hm : m.Spares n) (hv : m.Visible v) :
    n.store.isLambda v = m.store.isLambda v := by
  cases v with
  | pair a =>
    exact congrArg (fun cell : Cell => cell.first.isSymbolNamed Store.lambdaName) (hm.cells a hv).2
  | nil | number | string | symbol => rfl

theorem Inert.spares (h : m.Inert v) (hm : m.Spares n) : n.Inert v :=
  ⟨hm.visible h.visible, (hm.isLambda_eq h.visible).trans h.isLambda_eq⟩

/-- What frames bind keys to can be seen. -/
theorem Valid.bound_visible (h : m.Valid) {bindings : Bindings}
    (hbindings : bindings ∈ m.scopes.calls ++ [m.scopes.globals]) {binding : Value × Value}
    (hbinding : binding ∈ bindings) : m.Visible binding.2 := by
  apply h.visible_of_binds
  rcases List.mem_append.mp hbindings with hcall | hglobal
  · obtain ⟨frame, hframe, rfl⟩ := List.mem_map.mp hcall
    exact (binds_of_mem (List.mem_append_left _ hframe) hbinding).2
  · rw [List.mem_singleton.mp hglobal] at hbinding
    exact (binds_of_mem_globalBindings hbinding).2

namespace Tame

variable (h : m.Tame)
include h

theorem lookup {key : Value} (hlookup : m.lookup key = some v) : m.Inert v := by
  refine ⟨h.valid.lookup_visible hlookup, ?_⟩
  rw [lookup_eq_scopes] at hlookup
  obtain ⟨bindings, hbindings, hvalue⟩ := List.exists_of_findSome?_eq_some hlookup
  obtain ⟨binding, hfind, rfl⟩ := Option.map_eq_some_iff.mp hvalue
  exact h.bound bindings hbindings binding (List.mem_of_find?_eq_some hfind)

/-- New cells bind nothing. -/
theorem grows (hm : m.Grows n) (hn : n.Valid) : n.Tame := by
  refine ⟨hn, ?_⟩
  unfold BindsNoFunction
  rw [h.valid.scopes_eq_of_grows hm]
  intro bindings hbindings binding hbinding
  have hvisible := h.valid.bound_visible hbindings hbinding
  rw [(hm.evolves h.valid).toSpares.isLambda_eq hvisible]
  exact h.bound bindings hbindings binding hbinding

/-- To bind a key to a value that is no function brings in no function. -/
theorem defined {key : Value} (hkey : m.Visible key) (hv : m.Inert v) : (m.defined key v).Tame := by
  have hyields := h.valid.defined hkey hv.visible
  have hspares := hyields.evolves.toSpares
  refine ⟨hyields.valid, ?_⟩
  have hkept : ∀ bindings ∈ m.scopes.calls ++ [m.scopes.globals], ∀ binding ∈ bindings,
      (m.defined key v).store.isLambda binding.2 = false := by
    intro bindings hbindings binding hbinding
    rw [hspares.isLambda_eq (h.valid.bound_visible hbindings hbinding)]
    exact h.bound bindings hbindings binding hbinding
  unfold BindsNoFunction
  rw [h.valid.scopes_defined hkey hv.visible]
  intro bindings hbindings binding hbinding
  rcases List.mem_append.mp hbindings with hcall | hglobal
  · exact hkept bindings (List.mem_append_left _ hcall) binding hbinding
  · rw [List.mem_singleton.mp hglobal] at hbinding
    rcases Bindings.of_mem_assign hbinding with hold | ⟨other, -, -, hvalue⟩ | rfl
    · exact hkept m.scopes.globals (by simp) binding hold
    · rw [hvalue]
      exact (hv.spares hspares).isLambda_eq
    · exact (hv.spares hspares).isLambda_eq

end Tame

/-! ## Expressions without functions -/

theorem Valid.content_pair (h : m.Valid) {a : Nat} (ha : m.Visible (.pair a)) :
    m.store.content (.pair a) =
      .cons (m.store.content (m.store.cell a).first) (m.store.content (m.store.cell a).rest) := by
  obtain ⟨hfirst, hrest⟩ := h.cell_visible a ha
  exact (Store.Shows.pair ha.1 (h.shows hfirst) (h.shows hrest)).content_eq

theorem content_nil (m : Memory) : m.store.content .nil = .nil := Store.Shows.nil.content_eq

/-- The value can be seen, there is no function anywhere in it, and its height leaves room. -/
structure Plain (m : Memory) (room : Nat) (v : Value) : Prop where
  visible : m.Visible v
  lambdaFree : (m.store.content v).LambdaFree
  height_lt : (m.store.content v).height < room

namespace Plain

variable {room : Nat}

theorem nil (m : Memory) (hroom : 0 < room) : m.Plain room .nil :=
  ⟨trivial, by rw [content_nil]; trivial, by rw [content_nil]; exact hroom⟩

theorem pos (h : m.Plain room v) : 0 < room := Nat.zero_lt_of_lt h.height_lt

theorem spares (h : m.Plain room v) (hvalid : m.Valid) (hm : m.Spares n) : n.Plain room v := by
  refine ⟨hm.visible h.visible, ?_, ?_⟩
  · rw [hm.content_eq hvalid h.visible]
    exact h.lambdaFree
  · rw [hm.content_eq hvalid h.visible]
    exact h.height_lt

theorem inert (h : m.Plain room v) (hvalid : m.Valid) : m.Inert v := by
  refine ⟨h.visible, ?_⟩
  cases v with
  | pair a =>
    have hfree := h.lambdaFree
    rw [hvalid.content_pair h.visible] at hfree
    refine Bool.eq_false_iff.mpr fun hlambda => hfree.1 ?_
    exact Store.content_of_isSymbolNamed hlambda
  | nil | number | string | symbol => rfl

theorem rest (h : m.Plain room v) (hvalid : m.Valid) : m.Plain room (m.store.rest v) := by
  cases v with
  | pair a =>
    have hfree := h.lambdaFree
    have hheight := h.height_lt
    rw [hvalid.content_pair h.visible] at hfree hheight
    exact ⟨hvalid.rest_visible h.visible, hfree.2.2,
      Nat.lt_of_le_of_lt (Nat.le_max_right _ _) hheight⟩
  | nil | number | string | symbol => exact nil m h.pos

/-- The first half of a list leaves more room than the list. -/
theorem first (h : m.Plain (room + 1) v) (hvalid : m.Valid) (hroom : 0 < room) :
    m.Plain room (m.store.first v) := by
  cases v with
  | pair a =>
    have hfree := h.lambdaFree
    have hheight := h.height_lt
    rw [hvalid.content_pair h.visible] at hfree hheight
    exact ⟨hvalid.first_visible h.visible, hfree.2.1,
      Nat.lt_of_lt_of_le (Nat.lt_of_succ_le (Nat.le_max_left _ _)) (Nat.le_of_lt_succ hheight)⟩
  | nil | number | string | symbol => exact nil m hroom

theorem mono (h : m.Plain room v) {more : Nat} (hle : room ≤ more) : m.Plain more v :=
  ⟨h.visible, h.lambdaFree, Nat.lt_of_lt_of_le h.height_lt hle⟩

theorem second (h : m.Plain (room + 1) v) (hvalid : m.Valid) (hroom : 0 < room) :
    m.Plain room (m.store.second v) := (h.rest hvalid).first hvalid hroom

theorem third (h : m.Plain (room + 1) v) (hvalid : m.Valid) (hroom : 0 < room) :
    m.Plain room (m.store.third v) := ((h.rest hvalid).rest hvalid).first hvalid hroom

theorem elements (h : m.Plain (room + 1) v) (hvalid : m.Valid) (hroom : 0 < room) :
    ∀ item ∈ m.store.elements v, m.Plain room item := by
  intro item hitem
  obtain ⟨a, ha, rfl⟩ := List.mem_map.mp hitem
  have hlinks := (hvalid.chain h.visible).forall_links (fun b hb => hb.rest hvalid) h
  exact (hlinks a ha).first hvalid hroom

end Plain

/-- A memory that has become another one, and has given a value that is no function. -/
structure Gives (m n : Memory) (v : Value) : Prop where
  tame : n.Tame
  spares : m.Spares n
  inert : n.Inert v

theorem Gives.after {l : Memory} (h' : n.Gives l v) (h : m.Spares n) : m.Gives l v :=
  ⟨h'.tame, h.trans h'.spares, h'.inert⟩

end Memory

/-! ## Plans without calls -/

namespace Plan

open Memory

variable {m : Memory} {room : Nat}

/-- All that a plan evaluates is without functions and leaves room, all that it gives or binds is no
function, and it calls none. -/
def Fits (room : Nat) : Plan → Memory → Prop
  | value v, m => m.Inert v
  | truth _, _ => True
  | fault _ _, _ => True
  | bind key v, m => m.Visible key ∧ m.Inert v
  | enter _ _ _, _ => False
  | part _ expression next, m =>
    m.Plain room expression ∧ ∀ n v, m.Gives n v → (next v n).Fits room n

theorem fits_last {expression : Value} (h : m.Plain room expression) :
    (last expression).Fits room m := ⟨h, fun _ _ hn => hn.inert⟩

theorem fits_operands {first : Pending} {second : Value → Pending} {arguments : Value}
    {finish : Value → Value → Plan} (h : m.Tame) (hroom : 0 < room)
    (harguments : m.Plain (room + 1) arguments) (hfinish : ∀ a b n, (finish a b).Fits room n) :
    (operands first second m arguments finish).Fits room m := by
  refine ⟨harguments.first h.valid hroom, fun n a hn => ?_⟩
  have harguments' := harguments.spares h.valid hn.spares
  exact ⟨harguments'.second hn.tame.valid hroom, fun n' b _ => hfinish a b n'⟩

theorem fits_ofClauses {clauses : List Value} (h : m.Tame)
    (hclauses : ∀ clause ∈ clauses, m.Plain room clause) : (ofClauses clauses m).Fits room m := by
  induction clauses generalizing m with
  | nil => exact .of_atom m (by simp)
  | cons clause more ih =>
    obtain ⟨hclause, hmore⟩ := List.forall_mem_cons.mp hclauses
    have hroom := hclause.pos
    have hwide := hclause.mono (Nat.le_succ room)
    refine ⟨hwide.first h.valid hroom, fun n v hn => ?_⟩
    dsimp only
    split
    · exact fits_last ((hwide.spares h.valid hn.spares).second hn.tame.valid hroom)
    · exact ih hn.tame fun other hother => (hmore other hother).spares h.valid hn.spares

theorem fits_ofSpecial {whole arguments : Value} (h : m.Tame) (hroom : 0 < room)
    (form : SpecialForm) (hwhole : m.Plain (room + 1) whole)
    (harguments : m.Plain (room + 1) arguments) :
    (ofSpecial m form whole arguments).Fits room m := by
  have hfirst := harguments.first h.valid hroom
  have hlater : ∀ {n}, m.Spares n → n.Plain (room + 1) arguments :=
    fun hn => harguments.spares h.valid hn
  cases form with
  | quote => exact hfirst.inert h.valid
  | lambda => exact hwhole.inert h.valid
  | define =>
    refine ⟨harguments.second h.valid hroom, fun n v hn => ⟨?_, hn.inert⟩⟩
    exact ((hlater hn.spares).first hn.tame.valid hroom).visible
  | not => exact ⟨hfirst, fun _ _ _ => trivial⟩
  | cond => exact fits_ofClauses h (harguments.elements h.valid hroom)
  | and =>
    refine ⟨hfirst, fun n v hn => ?_⟩
    dsimp only
    split
    · exact fits_last ((hlater hn.spares).second hn.tame.valid hroom)
    · exact .of_atom n (by simp)
  | or =>
    refine ⟨hfirst, fun n v hn => ?_⟩
    dsimp only
    split
    · trivial
    · exact fits_last ((hlater hn.spares).second hn.tame.valid hroom)
  | ifElse =>
    refine ⟨hfirst, fun n v hn => ?_⟩
    dsimp only
    split
    · exact fits_last ((hlater hn.spares).second hn.tame.valid hroom)
    · exact fits_last ((hlater hn.spares).third hn.tame.valid hroom)

theorem fits_ofOperator {whole arguments : Value} (h : m.Tame) (hroom : 0 < room) (name : String)
    (operator : Operator) (hwhole : m.Plain (room + 1) whole)
    (harguments : m.Plain (room + 1) arguments) :
    (ofOperator m name operator whole arguments).Fits room m := by
  cases operator with
  | special form => exact fits_ofSpecial h hroom form hwhole harguments
  | arithmetic operation =>
    refine fits_operands h hroom harguments fun a b n => ?_
    cases operation.onValues a b with
    | ok result => exact .of_atom n (by simp)
    | error trouble => trivial
  | comparison relation =>
    refine fits_operands h hroom harguments fun a b n => ?_
    cases relation.onValues a b <;> trivial
  | equality => exact fits_operands h hroom harguments fun _ _ _ => trivial

/-- The plan of an expression without functions fits in one less of room. -/
theorem fits_of {expression : Value} (h : m.Tame) (hx : m.Plain (room + 1) expression) :
    (Plan.of m expression).Fits room m := by
  cases expression with
  | nil | number | string => exact .of_atom m (by simp)
  | symbol label =>
    show m.Inert ((m.lookup (.symbol label)).getD .nil)
    cases hlookup : m.lookup (.symbol label) with
    | none => exact .of_atom m (by simp)
    | some v => exact h.lookup hlookup
  | pair a =>
    have hroom : 0 < room := by
      have hheight := hx.height_lt
      rw [h.valid.content_pair hx.visible] at hheight
      exact Nat.lt_of_lt_of_le (Nat.lt_of_lt_of_le (Nat.succ_pos _) (Nat.le_max_left _ _))
        (Nat.le_of_lt_succ hheight)
    have hhead := hx.first h.valid hroom
    have harguments := hx.rest h.valid
    unfold Plan.of ofCall
    dsimp only
    split
    · split
      · exact fits_ofOperator h hroom _ _ hx harguments
      · split
        · rename_i bound hlookup
          rw [(h.lookup hlookup).isLambda_eq, if_neg Bool.false_ne_true]
          trivial
        · trivial
    · rw [(hhead.inert h.valid).isLambda_eq, if_neg Bool.false_ne_true]
      trivial
    · trivial

end Plan

/-! ## Evaluation without calls -/

section Evaluations

open Memory

variable {label : Label} {m : Memory}

/-- An evaluation has come to a value that is no function. -/
def Ending.Gives (label : Label) (m : Memory) : Ending → Prop
  | (.ok v, s) => s.truth = .symbol label ∧ m.Gives s.memory v
  | (.error _, _) => False

theorem Ending.Gives.after {n : Memory} {ending : Ending} (h' : ending.Gives label n)
    (h : m.Spares n) : ending.Gives label m := by
  obtain ⟨result, s⟩ := ending
  cases result with
  | ok v => exact ⟨h'.1, h'.2.after h⟩
  | error waiting => exact h'

/-- To follow a plan that fits comes to a value if the evaluation of its parts does. -/
theorem Plan.attempt_gives {stopping : Value → Session → Ending} {room : Nat}
    (hgives : ∀ (x : Value) (s : Session), s.truth = .symbol label → s.memory.Tame →
      s.memory.Plain room x → (stopping x s).Gives label s.memory)
    (plan : Plan) (s : Session) (htruth : s.truth = .symbol label) (h : s.memory.Tame)
    (hplan : plan.Fits room s.memory) : (plan.attempt stopping s).Gives label s.memory := by
  induction plan generalizing s with
  | value v => exact ⟨htruth, h, .refl _, hplan⟩
  | truth b =>
    refine ⟨htruth, h, .refl _, .of_atom _ ?_⟩
    cases b <;> simp [Session.boolean, htruth]
  | fault condition shallow =>
    refine ⟨(Session.Continues.failing shallow s).truth.trans htruth, ?_⟩
    show s.memory.Gives ((failing condition).run s).2.memory .nil
    rw [memory_failing]
    exact ⟨h, .refl _, .of_atom _ (by simp)⟩
  | bind key v =>
    obtain ⟨hkey, hv⟩ := hplan
    refine ⟨htruth, ?_⟩
    show s.memory.Gives ((inMemory (Memory.define key v)).run s).2.memory
      ((inMemory (Memory.define key v)).run s).1
    rw [run_inMemory_define]
    have hspares := (h.valid.defined hkey hv.visible).evolves.toSpares
    exact ⟨h.defined hkey hv, hspares, hv.spares hspares⟩
  | enter parameters arguments body => exact absurd hplan id
  | part pending expression next ih =>
    obtain ⟨hexpression, hnext⟩ := hplan
    have hpart := hgives expression s htruth h hexpression
    unfold attempt
    split
    · rename_i v s' hend
      rw [hend] at hpart
      obtain ⟨htruth', hpart⟩ := hpart
      exact (ih v s'.memory s' htruth' hpart.tame (hnext _ v hpart)).after hpart.spares
    · rename_i waiting s' hend
      rw [hend] at hpart
      exact absurd hpart id

/-- An expression without functions comes to a value if there is more room than it is high. -/
theorem evaluateOrStop_gives (room : Nat) (expression : Value) (s : Session)
    (htruth : s.truth = .symbol label) (h : s.memory.Tame) (hx : s.memory.Plain room expression) :
    (evaluateOrStop room expression s).Gives label s.memory := by
  induction room generalizing expression s with
  | zero => exact absurd hx.height_lt (Nat.not_lt_zero _)
  | succ room ih =>
    exact Plan.attempt_gives (fun x s htruth h hx => ih x s htruth h hx) _ s htruth h
      (Plan.fits_of h hx)

end Evaluations

/-! ## Forms that are read -/

namespace Token.Stream

/-- Every form of a stream is the next one from some place on. -/
theorem exists_read_of_mem_readAll {stream : Token.Stream} {form : Form}
    (h : form ∈ stream.readAll) : ∃ place : Token.Stream, form = place.read := by
  fun_induction readAll stream with
  | case1 => simp at h
  | case2 stream hexhausted ih =>
    rcases List.mem_cons.mp h with rfl | h
    · exact ⟨stream, rfl⟩
    · exact ih h

theorem height_read_lt (stream : Token.Stream) :
    stream.read.datum.height < Reader.nestingLimit := by
  have houtcome : stream.read.outcome = stream.readStrictly.1 := rfl
  unfold Form.datum
  split
  · rename_i datum hok
    exact height_lt_of_readStrictly (houtcome ▸ hok)
  · exact Nat.zero_lt_succ _

end Token.Stream

namespace Session

variable {α : Type} {s s' : Session}

/-- What is done reports that some form goes too deep. -/
def Abandons (s : Session) (act : Evaluation α) : Prop :=
  ∃ limit, .depthExceeded limit ∈ (act.run s).2.reported.drop s.reported.length

theorem Continues.not_abandons {act : Evaluation α} (h : s.Continues (act.run s).2) :
    ¬ s.Abandons act := fun ⟨limit, hlimit⟩ => h.drop_reported.2 limit hlimit

namespace Valid

/-- An expression without functions is evaluated to its end, and no function is bound. -/
theorem evaluate_plain (h : s.Valid) (hbinds : s.memory.BindsNoFunction) {expression : Value}
    (hx : s.memory.Plain s.settings.maxDepth expression) :
    s.Continues ((evaluate expression).run s).2 ∧
      ((evaluate expression).run s).2.memory.BindsNoFunction := by
  have htame : s.memory.Tame := ⟨h.memory, hbinds⟩
  have hgives := evaluateOrStop_gives s.settings.maxDepth expression s h.truth htame hx
  have hkept := evaluateOrStop_continues s.settings.maxDepth expression s
  rcases hend : evaluateOrStop s.settings.maxDepth expression s with ⟨waiting | v, s'⟩
  all_goals rw [hend] at hgives hkept
  case error => exact absurd hgives id
  case ok =>
    rw [h.run_evaluate_of_ok hend]
    exact ⟨hkept, hgives.2.tame.bound⟩

theorem evaluateForm_plain (h : s.Valid) (hbinds : s.memory.BindsNoFunction) {form : Form}
    (hfree : form.datum.LambdaFree) (hheight : form.datum.height < s.settings.maxDepth) :
    s.Continues ((evaluateForm form).run s).2 ∧
      ((evaluateForm form).run s).2.memory.BindsNoFunction := by
  have hreports : s.Continues { s with reported := s.reported ++ form.errors.map .unreadable } :=
    ⟨rfl, rfl, rfl, _, rfl, by simp [Condition.isDepthExceeded]⟩
  unfold evaluateForm
  rw [run_bind, h.run_reports]
  unfold Form.datum at hfree hheight
  cases houtcome : form.outcome with
  | error trouble => exact ⟨hreports, hbinds⟩
  | ok datum =>
    rw [houtcome] at hfree hheight
    have hload := h.memory.load datum
    let loaded := ((inMemory (Memory.making (Store.load datum))).run
      { s with reported := s.reported ++ form.errors.map .unreadable }).2
    have hvalid : loaded.Valid := ⟨hload.valid, h.truth, h.resting⟩
    have htame : loaded.memory.Tame :=
      Memory.Tame.grows ⟨h.memory, hbinds⟩ (s.memory.grows_load datum) hload.valid
    have hcontent := (h.memory.shows_load datum).content_eq
    have hplain : loaded.memory.Plain loaded.settings.maxDepth
        ((Store.load datum).run s.memory.store).1 := by
      refine ⟨hload.visible, ?_, ?_⟩
      · exact hcontent.symm ▸ hfree
      · exact hcontent.symm ▸ hheight
    obtain ⟨hkept, hbound⟩ := hvalid.evaluate_plain htame.bound hplain
    exact ⟨hreports.trans ((Continues.memory _ _).trans hkept), hbound⟩

theorem evaluateForms_plain (h : s.Valid) (hbinds : s.memory.BindsNoFunction) {forms : List Form}
    (hforms : ∀ form ∈ forms,
      form.datum.LambdaFree ∧ form.datum.height < s.settings.maxDepth) :
    s.Continues ((forms.mapM evaluateForm).run s).2 ∧
      ((forms.mapM evaluateForm).run s).2.memory.BindsNoFunction := by
  induction forms generalizing s with
  | nil => exact ⟨.refl s, hbinds⟩
  | cons form more ih =>
    obtain ⟨⟨hfree, hheight⟩, hmore⟩ := List.forall_mem_cons.mp hforms
    obtain ⟨hkept, hbound⟩ := h.evaluateForm_plain hbinds hfree hheight
    have hsettings := h.settings_evaluateForm form
    obtain ⟨hkept', hbound'⟩ := ih (h.read_keeps form).1 hbound fun other hother => by
      rw [hsettings]
      exact hmore other hother
    rw [List.mapM_cons, run_bind, run_bind]
    exact ⟨hkept.trans hkept', hbound'⟩

end Valid

end Session

/-! ## Depth without functions -/

/-- Let no name be bound to a function.  Then an expression in which there is none either does not
go too deep under a limit above its height.  What the reader gives is less high than its own limit,
so that under a limit of 512 or more nothing that is read goes too deep, one form or all forms of a
text, as long as there are no functions in it. -/
theorem exceeds_only_by_functions {s : Session} (h : s.Reachable)
    (hbinds : s.memory.BindsNoFunction) :
    (∀ x, s.memory.Visible x → (s.memory.store.content x).LambdaFree →
      (s.memory.store.content x).height < s.settings.maxDepth →
      ¬ s.Exceeds x ∧ (s.after (.evaluate x)).memory.BindsNoFunction) ∧
    (∀ (stream : Token.Stream) datum, stream.readStrictly.1 = .ok datum →
      datum.height < Reader.nestingLimit) ∧
    (512 ≤ s.settings.maxDepth →
      (∀ stream : Token.Stream, stream.read.datum.LambdaFree →
        ¬ s.Abandons (evaluateForm stream.read) ∧
          (s.after (.read stream.read)).memory.BindsNoFunction) ∧
      ∀ text, (∀ form ∈ (Token.Stream.ofText s.settings.comments text).readAll,
          form.datum.LambdaFree) → ¬ s.Abandons (evaluateText text)) := by
  refine ⟨?expressions, fun _ _ => Token.Stream.height_lt_of_readStrictly, ?texts⟩
  case expressions =>
    intro x hx hfree hheight
    obtain ⟨hkept, hbound⟩ := h.valid.evaluate_plain hbinds ⟨hx, hfree, hheight⟩
    exact ⟨hkept.not_abandons, hbound⟩
  case texts =>
    intro hdepth
    constructor
    · intro stream hfree
      have hheight := Nat.lt_of_lt_of_le stream.height_read_lt hdepth
      obtain ⟨hkept, hbound⟩ := h.valid.evaluateForm_plain hbinds hfree hheight
      exact ⟨hkept.not_abandons, hbound⟩
    · intro text hfree
      apply Session.Continues.not_abandons
      rw [run_evaluateText]
      refine (h.valid.evaluateForms_plain hbinds fun form hform => ⟨hfree form hform, ?_⟩).1
      obtain ⟨place, rfl⟩ := Token.Stream.exists_read_of_mem_readAll hform
      exact Nat.lt_of_lt_of_le place.height_read_lt hdepth

/-- A form of height 3 under a limit of 4, and a text that calls what is no function. -/
theorem exceeds_only_by_functions_cond :
    let negation : Datum := .ofList [.symbol "not", .nil]
    let datum : Datum := .ofList [.symbol "cond", .ofList [negation, .number (.integer 1)]]
    let s := (Session.start { maxDepth := 4 }).after (.load datum)
    let fresh := Session.start { maxDepth := 512 }
    let text := "(define x '(1 2)) (x (not x))"
    (s.Reachable ∧ s.memory.BindsNoFunction ∧ s.memory.store.content (.pair 7) = datum ∧
      datum.height = 3 ∧ ¬ s.Exceeds (.pair 7)) ∧
      fresh.memory.BindsNoFunction ∧
      (∀ form ∈ (Token.Stream.ofText false text).readAll, form.datum.LambdaFree) ∧
      ¬ fresh.Abandons (evaluateText text) := by
  intro negation datum s fresh text
  have hs : s.Reachable := .after (.start _) (.load _) trivial
  have hbinds : s.memory.BindsNoFunction := by decide +kernel
  have hbinds' : fresh.memory.BindsNoFunction := by decide +kernel
  have hcontent : s.memory.store.content (.pair 7) = datum := by decide +kernel
  have hfree : ∀ form ∈ (Token.Stream.ofText false text).readAll, form.datum.LambdaFree := by
    decide +kernel
  have hexpression := (exceeds_only_by_functions hs hbinds).1 (.pair 7) (by decide +kernel)
    (by decide +kernel) (by decide +kernel)
  have htext := ((exceeds_only_by_functions (.start _) hbinds').2.2 (by decide)).2 text hfree
  exact ⟨⟨hs, hbinds, hcontent, by decide, hexpression.1⟩, hbinds', hfree, htext⟩

end DynLisp
