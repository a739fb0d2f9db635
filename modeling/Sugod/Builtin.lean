/-!
# Built-in functions

The functions that every program finds defined: their names and how many arguments they take.
-/

set_option autoImplicit false

namespace Sugod

/-- A built-in function. -/
inductive Builtin where
  | clock
  | ceil
  | floor
  | sqrt
  | abs
  | pow
  | scanString
  deriving DecidableEq

namespace Builtin

/-- All built-in functions, in the order in which they are defined. -/
def all : List Builtin :=
  [clock, ceil, floor, sqrt, abs, pow, scanString]

/-- The name a program calls a built-in function by. -/
def name : Builtin → String
  | clock => "clock"
  | ceil => "ceil"
  | floor => "floor"
  | sqrt => "sqrt"
  | abs => "abs"
  | pow => "pow"
  | scanString => "scanString"

/-- The number of arguments of a built-in function. -/
def arity : Builtin → Nat
  | clock => 0
  | pow => 2
  | _ => 1

end Builtin

end Sugod
