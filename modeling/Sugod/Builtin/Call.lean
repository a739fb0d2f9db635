import Sugod.Fault

/-!
# Calls of built-in functions

A built-in function takes its arguments and the console and gives a value or a cause of failure.
The number of arguments is checked first, then their types from left to right.
-/

set_option autoImplicit false

namespace Sugod.Builtin

/-- A numeric argument as a fraction. -/
def number (b : Builtin) : Value → Except Cause Float
  | .int n => .ok n.toFloat
  | .float x => .ok x
  | v => .error (.builtinArgument b v.tag)

/-- A function of one fraction. -/
def onNumber (b : Builtin) (f : Float → Float) (v : Value) : Except Cause Value :=
  (b.number v).map fun x => .float (f x)

/-- The magnitude of a number, of the same type as the number. -/
def magnitude : Value → Except Cause Value
  | .int n => .ok (.int n.abs)
  | v => abs.onNumber Float.abs v

/-- A power of two fractions. -/
def power (x y : Value) : Except Cause Value :=
  match pow.number x, pow.number y with
  | .ok a, .ok b => .ok (.float (a.pow b))
  | .error e, _ => .error e
  | .ok _, .error e => .error e

/-- Writes a prompt on a line of its own and takes the next input line as text. -/
def ask (prompt : Value) (console : Console) : Except Cause Value × Console :=
  match console.write (prompt.text ++ "\n") with
  | (.error e, console) => (.error (.console e), console)
  | (.ok (), console) =>
    match console.read with
    | (.error e, console) => (.error (.console e), console)
    | (.ok none, console) => (.error .inputUnavailable, console)
    | (.ok (some line), console) => (.ok (.str line), console)

/-- Calls a built-in function. -/
def call (b : Builtin) (args : List Value) (console : Console) : Except Cause Value × Console :=
  match b, args with
  | clock, [] =>
    let (reading, console) := console.tick
    (.ok (.float reading), console)
  | ceil, [x] => (ceil.onNumber Float.ceil x, console)
  | floor, [x] => (floor.onNumber Float.floor x, console)
  | sqrt, [x] => (sqrt.onNumber Float.sqrt x, console)
  | abs, [x] => (magnitude x, console)
  | pow, [x, y] => (power x y, console)
  | scanString, [prompt] => ask prompt console
  | b, args => (.error (.wrongArgumentCount b.arity args.length), console)

end Sugod.Builtin
