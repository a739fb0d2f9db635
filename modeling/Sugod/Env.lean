import Sugod.Fault

/-!
# Environments

The variables of a running program live in scopes. The global scope has the number 0 and is always
there; further scopes are entered and left in stack order. A scope has a parent with a smaller
number, which need not be the scope below it: the scope of a function body hangs off the global
scope. A name means the nearest slot on the chain of parents that starts at the current scope.

The main operations are `lookup?`, `get` and `assign` on the chain, `declare` in the current scope,
and `push` and `pop`.
-/

set_option autoImplicit false

namespace Sugod

/-- A variable. Callables have no type and are never assigned; a variable without an initial value
has no value until it is assigned. -/
structure Slot where
  ty : Option Ty
  value : Option Value
  mutable : Bool

/-- The variables of one scope, by name. -/
abbrev Slots : Type :=
  List (String × Slot)

namespace Slots

/-- The slot with a name. -/
def find? (slots : Slots) (name : String) : Option Slot :=
  slots.lookup name

/-- Gives the slot with a name a new value. -/
def setValue (name : String) (v : Value) : Slots → Slots
  | [] => []
  | (key, slot) :: rest =>
    if key = name then (key, { slot with value := some v }) :: rest
    else (key, slot) :: setValue name v rest

/-- Puts a slot under a name, in place of a slot that is there already. -/
def insert (name : String) (slot : Slot) (slots : Slots) : Slots :=
  (name, slot) :: slots.filter fun entry => entry.1 ≠ name

end Slots

/-- The number of a scope; the global one is 0. -/
abbrev ScopeId : Type :=
  Nat

/-- The number of the global scope. -/
def globalScope : ScopeId :=
  0

/-- A scope other than the global one. -/
structure Scope where
  slots : Slots
  parent : ScopeId

/-- An environment: the global variables, the other scopes (the scope with number `i + 1` stands at
place `i`) and the number of the current scope. -/
structure Env where
  globals : Slots := []
  locals : Array Scope := #[]
  current : ScopeId := globalScope

namespace Env

/-- The number of scopes, the global one included. -/
def depth (env : Env) : Nat :=
  env.locals.size + 1

/-- The variables of a scope. -/
def slotsAt (env : Env) : ScopeId → Slots
  | 0 => env.globals
  | i + 1 =>
    match env.locals[i]? with
    | some scope => scope.slots
    | none => []

/-- Changes the variables of a scope. -/
def modifySlots (env : Env) (f : Slots → Slots) : ScopeId → Env
  | 0 => { env with globals := f env.globals }
  | i + 1 =>
    { env with locals := env.locals.modify i fun scope => { scope with slots := f scope.slots } }

/-- Enters a new scope under `parent`. -/
def push (parent : ScopeId) (env : Env) : Env :=
  { env with locals := env.locals.push ⟨[], parent⟩, current := env.locals.size + 1 }

/-- Leaves the last scope and makes `previous` the current one. -/
def pop (previous : ScopeId) (env : Env) : Env :=
  { env with locals := env.locals.pop, current := previous }

/-- The nearest scope, on the chain of parents that starts at a given one, that has a name. -/
def resolveFrom (env : Env) (name : String) (id : ScopeId) : Option ScopeId :=
  match id with
  | 0 => if (env.globals.find? name).isSome then some 0 else none
  | i + 1 =>
    match env.locals[i]? with
    | none => none
    | some scope =>
      if (scope.slots.find? name).isSome then some (i + 1)
      else if _ : scope.parent ≤ i then resolveFrom env name scope.parent
      else none
termination_by id
decreasing_by exact Nat.lt_succ_of_le ‹_›

/-- The scope in which a name is found from the current scope. -/
def resolve (env : Env) (name : String) : Option ScopeId :=
  env.resolveFrom name env.current

/-- The slot that a name means. -/
def lookup? (env : Env) (name : String) : Option Slot :=
  match env.resolve name with
  | some id => (env.slotsAt id).find? name
  | none => none

/-- The value of a name. -/
def get (env : Env) (name : String) : Except Cause Value :=
  match env.lookup? name with
  | some ⟨_, some v, _⟩ => .ok v
  | some ⟨_, none, _⟩ => .error (.uninitialized name)
  | none => .error (.undefinedVariable name)

/-- The value of a global name. -/
def global? (env : Env) (name : String) : Option Value :=
  match env.globals.find? name with
  | some slot => slot.value
  | none => none

/-- Adds a slot to the current scope, which must not have one with that name. -/
def declare (env : Env) (name : String) (slot : Slot) : Except Cause Env :=
  if ((env.slotsAt env.current).find? name).isSome then .error (.alreadyDeclared name)
  else .ok (env.modifySlots (fun slots => (name, slot) :: slots) env.current)

/-- Puts a callable under a global name, in place of what is there. -/
def defineGlobal (env : Env) (name : String) (v : Value) : Env :=
  { env with globals := env.globals.insert name ⟨none, some v, false⟩ }

/-- Gives the variable that a name means a new value. The variable must be mutable and have the
type of the value. -/
def assign (env : Env) (name : String) (v : Value) : Except Cause Env :=
  match env.resolve name with
  | none => .error (.undefinedVariable name)
  | some id =>
    match (env.slotsAt id).find? name with
    | none => .error (.undefinedVariable name)
    | some slot =>
      if slot.mutable then
        match slot.ty with
        | none => .error (.immutable name)
        | some ty =>
          if v.ty? = some ty then .ok (env.modifySlots (Slots.setValue name v) id)
          else .error (.assignMismatch name v.quoted v.tag ty)
      else .error (.immutable name)

end Env

end Sugod
