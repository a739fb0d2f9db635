import Sugod.Tree
import Sugod.Decimal.Display

/-!
# Values and their texts

What a value is (`tag`), the type a variable that holds it must have (`ty?`), its truth value, and
its two texts: `text` is what is displayed, `quoted` is what reports show, with quotes around
strings and characters.
-/

set_option autoImplicit false

namespace Sugod

/-- What a value is: data of a declarable type, something that can be called, or nothing. -/
inductive Tag where
  | data (ty : Ty)
  | callable
  | nothing
  deriving DecidableEq

/-- The word for a tag in reports. -/
def Tag.word : Tag → String
  | data ty => ty.keyword
  | callable => "BUHAT"
  | nothing => "WALA"

/-- The type of a variable that can hold values with a tag. -/
def Tag.ty? : Tag → Option Ty
  | data ty => some ty
  | _ => none

namespace Value

/-- What a value is. -/
def tag : Value → Tag
  | int _ => .data .int
  | float _ => .data .float
  | char _ => .data .char
  | bool _ => .data .bool
  | str _ => .data .string
  | fn _ => .callable
  | builtin _ => .callable
  | nil => .nothing

/-- The type of a value, if it can be stored in a variable. -/
def ty? (v : Value) : Option Ty :=
  v.tag.ty?

/-- The truth value of a value: only booleans have one. -/
def truth? : Value → Option Bool
  | bool b => some b
  | _ => none

/-- The text of a value as it is displayed. -/
def text : Value → String
  | int n => String.ofList (Decimal.signedNumeral n.toInt)
  | float x => String.ofList (Decimal.floatText x)
  | char c => c.toString
  | bool true => "OO"
  | bool false => "DILI"
  | str s => s
  | fn decl => "<BUHAT " ++ decl.name.lexeme ++ ">"
  | builtin b => "<native " ++ b.name ++ ">"
  | nil => ""

/-- The text of a value in reports. -/
def quoted : Value → String
  | str s => "\"" ++ s ++ "\""
  | char c => "'" ++ c.toString ++ "'"
  | v => v.text

end Value

end Sugod
