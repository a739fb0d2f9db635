import Sugod.Text.Split
import Sugod.Text.Blank

/-!
# Lines of input

Input lines are taken from rows, the stretches between line feeds; text behind the last line feed is
a line of its own if there is any. Two readers differ in what they remove at the end of a line.
`lines` serves text that follows a program: a line ends with a line feed or with a carriage return
and a line feed, and only that end is removed. A stream that is read line by line loses every
carriage return and line feed at the end of a line (`isLineEnd`).
-/

set_option autoImplicit false

namespace Sugod.Text

/-- A row that ended with a line feed, without one carriage return at its end. -/
def dropReturn (row : List Char) : List Char :=
  match row.reverse with
  | '\r' :: rest => rest.reverse
  | _ => row

/-- The lines of the rows of a text: the last row is a line only if it is not empty. `close` turns
a row that ended with a line feed into its line, `last` does so for an unfinished row. -/
def linesOfRows {α β : Type} (close last : List α → β) : List (List α) → List β
  | [] => []
  | [row] => if row.isEmpty then [] else [last row]
  | row :: next :: rows => close row :: linesOfRows close last (next :: rows)

/-- The lines of a text, each without its one line end. -/
def lines (cs : List Char) : List (List Char) :=
  linesOfRows dropReturn id (split '\n' cs)

/-- Whether a character ends a line that is read from a stream. -/
def isLineEnd (c : Char) : Bool :=
  c = '\n' || c = '\r'

/-- Cuts a text behind its first `n` rows; a row keeps its line feed. -/
def cutRows : Nat → List Char → List Char × List Char
  | 0, cs => ([], cs)
  | _ + 1, [] => ([], [])
  | n + 1, c :: cs =>
    let (first, rest) := cutRows (if c = '\n' then n else n + 1) cs
    (c :: first, rest)

/-- Nothing is lost where a text is cut. -/
theorem cutRows_append (n : Nat) (cs : List Char) :
    (cutRows n cs).1 ++ (cutRows n cs).2 = cs := by
  induction cs generalizing n with
  | nil => cases n <;> rfl
  | cons c cs ih =>
    cases n with
    | zero => rfl
    | succ n => simpa [cutRows] using ih _

end Sugod.Text
