import Sugod.Env

/-!
# Actions

Running a piece of a program takes a state to a result: it is done with a value, it stops early
for a reason, or it has spent the steps that it was given. In the first two cases there is a state
after it, also when it stopped: what was changed before stays changed. Out of steps is kept apart
from every way in which a program itself can end.

Expressions stop for a `Fault`; statements stop for an `Interrupt`, which is a fault or a return
from the function that the statement stands in.
-/

set_option autoImplicit false

namespace Sugod

/-- What a running program has: its variables, the console, how many function calls it is inside
of, and whether something has been displayed. -/
structure State where
  env : Env
  console : Console
  callDepth : Nat := 0
  displayed : Bool := false

/-- Why a statement ends early: a return, with the line of its keyword, or a fault. -/
inductive Interrupt where
  | returned (value : Option Value) (line : Nat)
  | fault (f : Fault)

/-- The result of an action. -/
inductive Result (ε α : Type) where
  | done (value : α) (after : State)
  | stop (reason : ε) (after : State)
  | spent

/-- An action that gives a value of type `α` or stops for a reason of type `ε`. -/
def Action (ε α : Type) : Type :=
  State → Result ε α

/-- Changes the state behind a result. -/
@[inline] def Result.mapAfter {ε α : Type} (f : State → State) : Result ε α → Result ε α
  | done a s => done a (f s)
  | stop e s => stop e (f s)
  | spent => spent

namespace Action

variable {ε α β : Type}

/-- Gives a value and does nothing else. -/
@[inline] protected def pure (a : α) : Action ε α :=
  fun s => .done a s

/-- Goes on with the value of an action if it is done. -/
@[inline] protected def bind (x : Action ε α) (f : α → Action ε β) : Action ε β :=
  fun s =>
    match x s with
    | .done a s' => f a s'
    | .stop e s' => .stop e s'
    | .spent => .spent

instance : Monad (Action ε) where
  pure := Action.pure
  bind := Action.bind

@[simp] theorem pure_apply (a : α) (s : State) : (pure a : Action ε α) s = .done a s := rfl

/-- What an action followed by another one does in a state. -/
theorem bind_apply (x : Action ε α) (f : α → Action ε β) (s : State) :
    (x >>= f) s =
      match x s with
      | .done a s' => f a s'
      | .stop e s' => .stop e s'
      | .spent => .spent := rfl

instance : LawfulMonad (Action ε) :=
  LawfulMonad.mk' _
    (fun x => by
      funext s
      show Action.bind x Action.pure s = x s
      unfold Action.bind Action.pure
      cases x s <;> rfl)
    (fun _ _ => rfl)
    (fun x f g => by
      funext s
      show Action.bind (Action.bind x f) g s = Action.bind x (fun a => Action.bind (f a) g) s
      unfold Action.bind
      cases x s <;> rfl)

/-- Stops for a reason. -/
@[inline] def stop (e : ε) : Action ε α :=
  fun s => .stop e s

/-- The action for which there are no steps left. -/
@[inline] def spent : Action ε α :=
  fun _ => .spent

/-- A value, or a cause that is reported at a line. -/
@[inline] def ofExcept (line : Nat) (x : Except Cause α) : Action Fault α :=
  fun s =>
    match x with
    | .ok a => .done a s
    | .error c => .stop ⟨c, line⟩ s

/-- An action of an expression as part of a statement. -/
@[inline] def asStmt (x : Action Fault α) : Action Interrupt α :=
  fun s =>
    match x s with
    | .done a s' => .done a s'
    | .stop f s' => .stop (.fault f) s'
    | .spent => .spent

/-- Goes on if a check of the number of calls does not fail. -/
@[inline] def checked (line : Nat) (f : Nat → Except Cause Unit) : Action Fault Unit :=
  fun s => ofExcept line (f s.callDepth) s

/-- An action on the console. -/
@[inline] def onConsole (line : Nat) (f : Console → Except Cause α × Console) : Action Fault α :=
  fun s =>
    match f s.console with
    | (.ok a, console) => .done a { s with console := console }
    | (.error c, console) => .stop ⟨c, line⟩ { s with console := console }

/-- An action that changes the environment, or leaves it alone and stops. -/
@[inline] def onEnv (line : Nat) (f : Env → Except Cause Env) : Action Fault Unit :=
  fun s =>
    match f s.env with
    | .ok env => .done () { s with env := env }
    | .error c => .stop ⟨c, line⟩ s

/-- The value of a variable. -/
def getVar (name : Token) : Action Fault Value :=
  fun s => ofExcept name.line (s.env.get name.lexeme) s

/-- Assigns a variable. -/
def assign (name : Token) (v : Value) : Action Fault Unit :=
  onEnv name.line fun env => env.assign name.lexeme v

/-- Declares a variable in the current scope. -/
def declare (name : Token) (slot : Slot) : Action Fault Unit :=
  onEnv name.line fun env => env.declare name.lexeme slot

/-- Assigns variables one after another. -/
def assignAll : List (Token × Value) → Action Fault Unit
  | [] => pure ()
  | (name, v) :: rest => do
    assign name v
    assignAll rest

/-- Takes the next input line, which must exist. -/
def readLine (line : Nat) : Action Fault String :=
  onConsole line fun console =>
    match console.read with
    | (.error e, console) => (.error (.console e), console)
    | (.ok none, console) => (.error .inputUnavailable, console)
    | (.ok (some text), console) => (.ok text, console)

/-- Displays a text. That something was to be displayed counts even if writing fails. -/
def display (line : Nat) (text : String) : Action Fault Unit :=
  fun s =>
    onConsole line (fun console =>
      match console.write text with
      | (.error e, console) => (.error (.console e), console)
      | (.ok (), console) => (.ok (), console)) { s with displayed := true }

/-- Runs an action in a new scope under `parent`. The scope is left whatever way the action ends. -/
@[inline] def inScope (parent : ScopeId) (x : Action ε α) : Action ε α :=
  fun s =>
    (x { s with env := s.env.push parent }).mapAfter fun s' =>
      { s' with env := s'.env.pop s.env.current }

/-- Runs an action in a new scope under the current one. -/
@[inline] def nested (x : Action ε α) : Action ε α :=
  fun s => inScope s.env.current x s

/-- Runs the body of a function: one call deeper, in a scope under the global one. -/
@[inline] def called (x : Action ε α) : Action ε α :=
  fun s =>
    (inScope globalScope x { s with callDepth := s.callDepth + 1 }).mapAfter fun s' =>
      { s' with callDepth := s'.callDepth - 1 }

/-- Goes on with the way in which an action ended. -/
@[inline] def settle {ε' : Type} (x : Action ε α) (f : Except ε α → Except ε' β) : Action ε' β :=
  fun s =>
    match x s with
    | .done a s' =>
      match f (.ok a) with
      | .ok b => .done b s'
      | .error e => .stop e s'
    | .stop e s' =>
      match f (.error e) with
      | .ok b => .done b s'
      | .error e' => .stop e' s'
    | .spent => .spent

end Action

end Sugod
