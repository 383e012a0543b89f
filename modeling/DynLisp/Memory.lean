/-
  Memory.lean --- the store together with the environment that lives in it.

  WHAT THIS FILE IS FOR.  Defining a name touches both: the bindings are lists,
  and lists are cells.  A name that is bound globally has its value overwritten
  in place; any other name goes in front of all others.
-/
import DynLisp.Environment

set_option autoImplicit false

namespace DynLisp

/-- All cells, and all bindings. -/
structure Memory where
  store : Store := {}
  environment : Environment := {}

namespace Memory

/-- A memory with nothing in it. -/
def empty : Memory := {}

/-- Make something in the store. -/
def making {α : Type} (make : StateM Store α) : StateM Memory α :=
  modifyGet fun ⟨store, environment⟩ =>
    let (made, store) := make.run store
    (made, ⟨store, environment⟩)

/-- What a key is bound to. -/
def lookup (m : Memory) (key : Value) : Option Value := m.environment.lookup m.store key

/-- What the symbols of a name are bound to. -/
def lookupName (m : Memory) (name : String) : Option Value := m.lookup (.symbol ⟨0, name⟩)

/-- The cell that holds the global value of a key. -/
def globalSlot? (m : Memory) (key : Value) : Option Nat := m.environment.globals.slot? m.store key

/-- The global bindings, the newest name first. -/
def globalBindings (m : Memory) : List (Value × Value) :=
  m.environment.globals.bindings m.store

/-- The memory inside a call that binds some parameters to some arguments. -/
def push (m : Memory) (parameters arguments : Value) : Memory :=
  { m with environment := m.environment.push parameters arguments }

/-- The memory outside the innermost call. -/
def pop (m : Memory) : Memory := { m with environment := m.environment.pop }

/-- Put a new binding in front of the global frame. -/
def prepend (symbol v : Value) : StateM Memory Unit := do
  let globals := (← get).environment.globals
  let symbols ← making (Store.cons symbol globals.symbols)
  let values ← making (Store.cons v globals.values)
  modify fun m => { m with environment := { m.environment with globals := ⟨symbols, values⟩ } }

/-- Bind a symbol globally, whatever calls are going on, and give its value. -/
def define (symbol v : Value) : StateM Memory Value := do
  match (← get).globalSlot? symbol with
  | some address => modify fun ⟨store, environment⟩ => ⟨store.setFirst address v, environment⟩
  | none => prepend symbol v
  return v

end Memory

end DynLisp
