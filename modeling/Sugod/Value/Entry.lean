import Sugod.Value
import Sugod.Text.Split
import Sugod.Text.Blank
import Sugod.Decimal.Nearest

/-!
# Entries of an input line

A line that was typed in is cut at its commas into fields, and every field, without the blanks
around it, is read as a value. The readings are tried in a fixed order: a whole number of 64 bits,
a number with a fraction or an exponent, a single character, a truth value, and text.
-/

set_option autoImplicit false

namespace Sugod.Entry

/-- A numeral's sign and the rest: whether there is a minus sign. One sign may stand in front. -/
def sign : List Char → Bool × List Char
  | '-' :: cs => (true, cs)
  | '+' :: cs => (false, cs)
  | cs => (false, cs)

/-- The value of a non-empty run of digits. -/
def digits? (cs : List Char) : Option Nat :=
  if cs.isEmpty || !cs.all Char.isDigit then none else some (Decimal.numeralValue cs)

/-- A whole number with an optional sign that fits in 64 bits. -/
def int? (cs : List Char) : Option Int64 :=
  match digits? (sign cs).2 with
  | none => none
  | some n =>
    let i : Int := if (sign cs).1 then -n else n
    if Int64.minValue.toInt ≤ i ∧ i ≤ Int64.maxValue.toInt then some (Int64.ofInt i) else none

/-- The exponent of a number: nothing, or `e` or `E` and a whole number with an optional sign. -/
def exponent? : List Char → Option Int
  | [] => some 0
  | c :: cs =>
    if c = 'e' || c = 'E' then
      match digits? (sign cs).2 with
      | none => none
      | some n => some (if (sign cs).1 then -n else n)
    else none

/-- The digits behind a point, if a point comes first, and the rest. -/
def fraction : List Char → List Char × List Char
  | '.' :: cs => (cs.takeWhile Char.isDigit, cs.dropWhile Char.isDigit)
  | cs => ([], cs)

/-- The double nearest to a decimal with an optional sign, point and exponent. There must be a
digit in front of the exponent; a point needs digits on one side only. -/
def float? (cs : List Char) : Option Float :=
  let (negative, body) := sign cs
  let whole := body.takeWhile Char.isDigit
  let (fs, rest) := fraction (body.dropWhile Char.isDigit)
  if whole.isEmpty && fs.isEmpty then none
  else
    match exponent? rest with
    | none => none
    | some e =>
      some (Decimal.Binary.floatOfWord negative
        (Decimal.nearestDecimal (Decimal.numeralValue (whole ++ fs)) (e - fs.length)))

/-- The value of a field that is no number. -/
def textValue : List Char → Value
  | [c] => .char c
  | cs =>
    if cs = "OO".toList then .bool true
    else if cs = "DILI".toList then .bool false
    else .str (String.ofList cs)

/-- The value of a field without the blanks around it. -/
def fieldValue (cs : List Char) : Value :=
  match int? cs with
  | some n => .int n
  | none =>
    match float? cs with
    | some x => .float x
    | none => textValue cs

/-- The values of an input line. -/
def values (line : String) : List Value :=
  (Text.split ',' line.toList).map fun field => fieldValue (Text.trim field)

end Sugod.Entry
