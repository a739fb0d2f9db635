import Sugod.Token.Scan
import Sugod.Text.Lines

/-!
# A program with its input

Text that is piped in holds a program and behind it the input lines of the program. The program
ends with the row that holds the first token `KATAPUSAN`; text without one is all program.
-/

set_option autoImplicit false

namespace Sugod

/-- A program and the input lines behind it. -/
structure Piped where
  program : List Char
  input : List (List Char)

namespace Piped

/-- The line on which a program ends. -/
def lastLine? (source : List Char) : Option Nat :=
  ((Scan.proper source).find? (Token.is .katapusan)).map Token.line

/-- Divides a text into a program and its input lines. -/
def ofSource (source : List Char) : Piped :=
  match lastLine? source with
  | none => ⟨source, []⟩
  | some line => ⟨(Text.cutRows line source).1, Text.lines (Text.cutRows line source).2⟩

end Piped

end Sugod
