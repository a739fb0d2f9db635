/-!
# Data types

The five types a variable, a parameter or a function result can be declared with, and the
keyword that spells each of them.
-/

set_option autoImplicit false

namespace Sugod

/-- A declared type: whole numbers, binary fractions, single characters, truth values, text. -/
inductive Ty where
  | int
  | float
  | char
  | bool
  | string
  deriving DecidableEq

/-- The keyword that spells a type. -/
def Ty.keyword : Ty → String
  | .int => "NUMERO"
  | .float => "TIPIK"
  | .char => "LETRA"
  | .bool => "TINUOD"
  | .string => "PULONG"

end Sugod
