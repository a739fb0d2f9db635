import Sugod.Decimal.Shortest

/-!
# The text of a fraction

A finite number is written without an exponent. Whole numbers below `10^16` in magnitude have one
zero behind the point; all other numbers have the fewest digits that read back, and so a whole
number from `10^16` on has no point at all. The sign of a negative zero is kept.
-/

set_option autoImplicit false

namespace Sugod.Decimal

/-- The magnitude from which whole numbers are written without a point. -/
def wholeLimit : Nat :=
  Nat.pow 10 16

/-- The text of the magnitude `m · 2^(s - 1074)`. -/
def magnitudeText (m s : Nat) : List Char :=
  let scaled := m * Nat.pow 2 s
  if scaled % Nat.pow 2 1074 = 0 ∧ scaled / Nat.pow 2 1074 < wholeLimit then
    numeral (scaled / Nat.pow 2 1074) ++ ['.', '0']
  else (shortest m s).positional

/-- The text of an exact reading of a double. -/
def Binary.text : Binary → List Char
  | nan => "NaN".toList
  | infinite negative => if negative then "-inf".toList else "inf".toList
  | finite negative m s => if negative then '-' :: magnitudeText m s else magnitudeText m s

/-- The text of a double. -/
def floatText (x : Float) : List Char :=
  (Binary.ofFloat x).text

end Sugod.Decimal
