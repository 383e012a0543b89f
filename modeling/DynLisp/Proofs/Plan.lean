/-
  Proofs/Plan.lean --- a form taken apart into what it does next.

  WHAT THIS FILE IS FOR.  `Evaluation.step` runs a form through the monad.  Here
  the same form is a `Plan`: a tree that says which part is evaluated next, what
  becomes of its value, and how the form ends.  A plan leaves open how its parts
  are evaluated.  So what holds of every way of following a plan is proved by one
  induction on plans, and not once for every special form.

  THE CONNECTION.  `Evaluation.step_eq_follow`: one step of evaluation is to
  follow the plan of the expression.

  THE READINGS.  A plan reads the memory and nothing else of the session.  What
  has been reported and where the depth limit lies cannot influence it.
-/
import DynLisp.Proofs.Cells
import DynLisp.Session.Evaluation

set_option autoImplicit false

namespace DynLisp

/-- The condition is the one that abandons a form. -/
def Condition.isDepthExceeded : Condition → Bool
  | depthExceeded _ => true
  | _ => false

/-- What a form that waits for the value of a part does with it if nothing more is evaluated. -/
inductive Pending where
  /-- hands it on -/
  | passing
  /-- gives the empty list, whatever it is -/
  | dropping
  /-- gives true for the empty list and the empty list for anything else -/
  | inverting
  /-- compares it with the value of the operand before it -/
  | comparing (other : Value)
  /-- binds the first of its arguments to it, and hands it on -/
  | binding (arguments : Value)
  /-- lists it as an argument of a call, after those before it and with some still missing -/
  | listing (before : List Value) (missing : Nat)
  deriving DecidableEq

/-- What a form does. -/
inductive Plan where
  /-- give a value -/
  | value (v : Value)
  /-- give the symbol for true or the empty list -/
  | truth (b : Bool)
  /-- report a condition and give the empty list -/
  | fault (condition : Condition) (shallow : condition.isDepthExceeded = false)
  /-- bind a key globally -/
  | bind (key v : Value)
  /-- evaluate the body of a function inside a call -/
  | enter (parameters : Value) (arguments : List Value) (body : Value)
  /-- evaluate a part, and go on as its value and the memory after it have it -/
  | part (pending : Pending) (expression : Value) (next : Value → Memory → Plan)

/-- The memory inside a call that binds some parameters to some arguments, newly listed. -/
def Memory.entered (m : Memory) (parameters : Value) (arguments : List Value) : Memory :=
  let (list, m) := (Memory.making (Store.list arguments)).run m
  m.push parameters list

namespace Plan

/-! ## The plans of forms -/

/-- The value of the form is that of one last part. -/
def last (expression : Value) : Plan := part .passing expression fun v _ => value v

/-- The first two arguments in order, and an end that depends on their values. -/
def operands (first : Pending) (second : Value → Pending) (m : Memory) (arguments : Value)
    (finish : Value → Value → Plan) : Plan :=
  part first (m.store.first arguments) fun a m =>
    part (second a) (m.store.second arguments) fun b _ => finish a b

/-- The tests of some clauses, up to the first that is true. -/
def ofClauses : List Value → Memory → Plan
  | [], _ => value .nil
  | clause :: more, m =>
    part .dropping (m.store.first clause) fun v m =>
      if v.isTruthy then last (m.store.second clause) else ofClauses more m

/-- A special form. -/
def ofSpecial (m : Memory) (form : SpecialForm) (whole arguments : Value) : Plan :=
  match form with
  | .quote => value (m.store.first arguments)
  | .lambda => value whole
  | .define =>
    part (.binding arguments) (m.store.second arguments) fun v m =>
      bind (m.store.first arguments) v
  | .not => part .inverting (m.store.first arguments) fun v _ => truth (!v.isTruthy)
  | .and =>
    part .dropping (m.store.first arguments) fun v m =>
      if v.isTruthy then last (m.store.second arguments) else value .nil
  | .or =>
    part .passing (m.store.first arguments) fun v m =>
      if v.isTruthy then truth true else last (m.store.second arguments)
  | .ifElse =>
    part .dropping (m.store.first arguments) fun v m =>
      if v.isTruthy then last (m.store.second arguments) else last (m.store.third arguments)
  | .cond => ofClauses (m.store.elements arguments) m

/-- What comes of an arithmetic operation. -/
def ofArithmetic (name : String) : Except ArithmeticFault Number → Plan
  | .ok n => value (.number n)
  | .error trouble => fault (.arithmetic name trouble) rfl

/-- What comes of a comparison. -/
def ofComparison (name : String) : Except ArithmeticFault Bool → Plan
  | .ok b => truth b
  | .error trouble => fault (.arithmetic name trouble) rfl

/-- A list that starts with an operator. -/
def ofOperator (m : Memory) (name : String) (operator : Operator) (whole arguments : Value) :
    Plan :=
  match operator with
  | .special form => ofSpecial m form whole arguments
  | .arithmetic operation =>
    operands .dropping (fun _ => .dropping) m arguments fun a b =>
      ofArithmetic name (operation.onValues a b)
  | .comparison relation =>
    operands .dropping (fun _ => .dropping) m arguments fun a b =>
      ofComparison name (relation.onValues a b)
  | .equality =>
    operands .inverting .comparing m arguments fun a b => truth (a.equalAtoms b)

/-- The arguments of a call in order, after some already evaluated, and then its body. -/
def ofArguments (parameters body : Value) : (before : List Value) → List Value → Plan
  | before, [] => enter parameters before body
  | before, argument :: more =>
    part (.listing before more.length) argument fun v _ =>
      ofArguments parameters body (before ++ [v]) more

/-- The application of a function. -/
def ofFunction (m : Memory) (function arguments : Value) : Plan :=
  ofArguments (m.store.second function) (m.store.third function) [] (m.store.elements arguments)

/-- A list, evaluated as a call. -/
def ofCall (m : Memory) (whole : Value) : Plan :=
  let head := m.store.first whole
  let arguments := m.store.rest whole
  match head with
  | .symbol label =>
    match Operator.find? label.text with
    | some operator => ofOperator m label.text operator whole arguments
    | none =>
      match m.lookup head with
      | some bound =>
        if m.store.isLambda bound then ofFunction m bound arguments
        else fault (.unknownFunction label.text) rfl
      | none => fault (.unknownFunction label.text) rfl
  | .pair _ =>
    if m.store.isLambda head then ofFunction m head arguments
    else fault (.invalidCall (m.store.content whole).render) rfl
  | _ => fault (.invalidCall (m.store.content whole).render) rfl

/-- The plan of an expression. -/
def of (m : Memory) (expression : Value) : Plan :=
  match expression with
  | .nil | .number _ | .string _ => value expression
  | .symbol _ => value ((m.lookup expression).getD .nil)
  | .pair _ => ofCall m expression

/-! ## Following a plan -/

open Evaluation

/-- Start a call that binds some parameters to some arguments. -/
def enterCall (parameters : Value) (arguments : List Value) : Evaluation Unit := do
  let list ← inMemory (Memory.making (Store.list arguments))
  inMemory (modify fun m => m.push parameters list)

/-- End the innermost call. -/
def leaveCall : Evaluation Unit := inMemory (modify fun m => m.pop)

/-- Do what a plan says, with some way to evaluate its parts. -/
def follow (evaluate : Value → Evaluation Value) : Plan → Evaluation Value
  | value v => return v
  | truth b => boolean b
  | fault condition _ => failing condition
  | bind key v => inMemory (Memory.define key v)
  | enter parameters arguments body => do
    enterCall parameters arguments
    let result ← evaluate body
    leaveCall
    return result
  | part _ expression next => do
    let v ← evaluate expression
    follow evaluate (next v (← get).memory)

end Plan

/-! ## Running -/

namespace Evaluation

variable {α : Type} (s : Session)

@[simp] theorem run_store : store.run s = (s.memory.store, s) := (rfl)

@[simp] theorem run_inMemory (act : StateM Memory α) :
    (inMemory act).run s = ((act.run s.memory).1, { s with memory := (act.run s.memory).2 }) := rfl

theorem run_inMemory_define (key v : Value) :
    (inMemory (Memory.define key v)).run s =
      (v, { s with memory := s.memory.defined key v }) := by
  rw [run_inMemory, Memory.run_define]

theorem run_enterCall (parameters : Value) (arguments : List Value) :
    (Plan.enterCall parameters arguments).run s =
      ((), { s with memory := s.memory.entered parameters arguments }) := rfl

theorem run_leaveCall : Plan.leaveCall.run s = ((), { s with memory := s.memory.pop }) := rfl

/-! ## One step -/

variable (evaluate : Value → Evaluation Value)

@[simp] theorem run_follow_part (pending : Pending) (expression : Value)
    (next : Value → Memory → Plan) :
    ((Plan.part pending expression next).follow evaluate).run s =
      ((next ((evaluate expression).run s).1 ((evaluate expression).run s).2.memory).follow
        evaluate).run ((evaluate expression).run s).2 := rfl

theorem run_firstClause (clauses : List Value) :
    (firstClause evaluate clauses).run s =
      ((Plan.ofClauses clauses s.memory).follow evaluate).run s := by
  induction clauses generalizing s with
  | nil => rfl
  | cons clause more ih =>
    simp only [firstClause, Plan.ofClauses, run_bind, run_store, run_follow_part]
    split
    · rfl
    · exact ih _

/-- Evaluating the arguments and then the call is following the plan of the arguments. -/
theorem run_follow_ofArguments (parameters body : Value) (before arguments : List Value) :
    ((Plan.ofArguments parameters body before arguments).follow evaluate).run s =
      (do
        let values ← arguments.mapM evaluate
        (Plan.enter parameters (before ++ values) body).follow evaluate).run s := by
  induction arguments generalizing before s with
  | nil => simp [Plan.ofArguments]
  | cons argument more ih =>
    simp only [Plan.ofArguments, run_follow_part, ih, List.mapM_cons, run_bind, run_pure,
      List.append_assoc, List.singleton_append]

theorem run_apply (function arguments : Value) :
    (apply evaluate function arguments).run s =
      ((Plan.ofFunction s.memory function arguments).follow evaluate).run s := by
  rw [Plan.ofFunction, run_follow_ofArguments]
  simp only [apply, Plan.follow, Plan.enterCall, Plan.leaveCall, run_bind, run_store, run_pure,
    List.nil_append]

theorem run_special (form : SpecialForm) (whole arguments : Value) :
    (special evaluate form whole arguments).run s =
      ((Plan.ofSpecial s.memory form whole arguments).follow evaluate).run s := by
  cases form with
  | quote | lambda | define | not => rfl
  | cond => exact run_firstClause s evaluate _
  | and | or | ifElse =>
    simp only [special, Plan.ofSpecial, run_bind, run_store, run_follow_part]
    split <;> rfl

theorem run_operate (name : String) (operator : Operator) (whole arguments : Value) :
    (operate evaluate name operator whole arguments).run s =
      ((Plan.ofOperator s.memory name operator whole arguments).follow evaluate).run s := by
  cases operator with
  | special form => exact run_special s evaluate form whole arguments
  | equality =>
    simp only [operate, operands, Plan.ofOperator, Plan.operands, run_bind, run_store, run_pure,
      run_follow_part]
    rfl
  | arithmetic operation =>
    simp only [operate, operands, Plan.ofOperator, Plan.operands, run_bind, run_store, run_pure,
      run_follow_part]
    split <;> rename_i h <;> rw [h] <;> rfl
  | comparison relation =>
    simp only [operate, operands, Plan.ofOperator, Plan.operands, run_bind, run_store, run_pure,
      run_follow_part]
    split <;> rename_i h <;> rw [h] <;> rfl

theorem run_call (whole : Value) :
    (call evaluate whole).run s = ((Plan.ofCall s.memory whole).follow evaluate).run s := by
  unfold call Plan.ofCall
  simp only [run_bind, run_store]
  cases hhead : s.memory.store.first whole with
  | nil | number | string => rfl
  | symbol label =>
    dsimp only
    cases Operator.find? label.text with
    | some operator => exact run_operate s evaluate _ _ _ _
    | none =>
      simp only [run_bind, run_get]
      cases s.memory.lookup (.symbol label) with
      | none => rfl
      | some bound =>
        simp only [run_bind, run_store]
        by_cases hlambda : s.memory.store.isLambda bound = true
        · simp only [hlambda, if_true]
          exact run_apply s evaluate _ _
        · simp only [hlambda]
          rfl
  | pair address =>
    simp only [run_bind, run_store]
    by_cases hlambda : s.memory.store.isLambda (.pair address) = true
    · simp only [hlambda, if_true]
      exact run_apply s evaluate _ _
    · simp only [hlambda]
      rfl

/-- One step of evaluation is to follow the plan of the expression. -/
theorem step_eq_follow (expression : Value) :
    (step evaluate expression).run s =
      ((Plan.of s.memory expression).follow evaluate).run s := by
  cases expression with
  | nil | number | string | symbol => rfl
  | pair => exact run_call s evaluate _

end Evaluation

end DynLisp
