import Sugod.Token
import Sugod.Token.ScanError
import Sugod.Decimal.Numeral
import Sugod.Decimal.Nearest

/-!
# The pieces of a source

A source is cut into pieces in one pass. `first c cs` says what starts with the character `c` when
`cs` is the rest of the source: a token, an error, a line feed or something to skip, and how many
characters of `cs` belong to it. `pieces` cuts a whole source: its pieces, one after another, are
the source.

Between two line feeds stands a row. Every form of literal looks out for the end of its row.

## Conventions

* a word is a run of ASCII letters, digits and underscores that does not start with a digit;
* a string stands between double quotes, a character between single quotes or square brackets, and
  `$` is the character of a line feed;
* a number is a run of digits, with a fraction if a point and a digit follow, and no letter may
  follow it;
* `#` starts a comment that runs to the end of the row;
* a keyword of two words has nothing but spaces and tabs between them.
-/

set_option autoImplicit false

namespace Sugod

/-- What a piece of a source is. -/
inductive Finding where
  | skip
  | lineFeed
  | token (kind : Kind)
  | error (cause : ScanCause)

/-- A stretch of a source and what it is. -/
structure Piece where
  finding : Finding
  text : List Char

namespace Piece

/-- Whether a character can stand inside a word. -/
def isWordChar (c : Char) : Bool :=
  c.isAlphanum || c = '_'

/-- Whether a character can start a word. -/
def isWordStart (c : Char) : Bool :=
  c.isAlpha || c = '_'

/-- Whether a character divides the words of a row. -/
def isGap (c : Char) : Bool :=
  c = ' ' || c = '\t'

/-- The mark that starts with a character, if it is punctuation or an operator, and the number of
characters behind the first that belong to it. -/
def mark? : Char → List Char → Option (Mark × Nat)
  | '(', _ => some (.leftParen, 0)
  | ')', _ => some (.rightParen, 0)
  | '{', _ => some (.leftBrace, 0)
  | '}', _ => some (.rightBrace, 0)
  | ',', _ => some (.comma, 0)
  | ':', _ => some (.colon, 0)
  | '+', _ => some (.plus, 0)
  | '-', _ => some (.minus, 0)
  | '*', _ => some (.star, 0)
  | '/', _ => some (.slash, 0)
  | '%', _ => some (.percent, 0)
  | '&', _ => some (.ampersand, 0)
  | '!', _ => some (.bang, 0)
  | '=', '=' :: _ => some (.equalEqual, 1)
  | '=', _ => some (.equal, 0)
  | '>', '=' :: _ => some (.greaterEqual, 1)
  | '>', _ => some (.greater, 0)
  | '<', '=' :: _ => some (.lessEqual, 1)
  | '<', '>' :: _ => some (.notEqual, 1)
  | '<', _ => some (.less, 0)
  | _, _ => none

/-- The kind of a string literal. The two truth values may be written as strings. -/
def stringKind (text : List Char) : Kind :=
  if text = "OO".toList then .mark .oo
  else if text = "DILI".toList then .mark .dili
  else .string (String.ofList text)

/-- The characters in front of `close`, or the rest of the row if it does not hold `close`. -/
def upTo (close : Char) (cs : List Char) : List Char :=
  cs.takeWhile fun c => c ≠ close && c ≠ '\n'

/-- Whether `close` follows the characters in front of it on the row. -/
def closes (close : Char) (cs : List Char) : Bool :=
  (cs.drop (upTo close cs).length).head? = some close

/-- What follows an opening double quote. Without a closing one the rest of the row is taken. -/
def string (cs : List Char) : Finding × Nat :=
  if closes '"' cs then (.token (stringKind (upTo '"' cs)), (upTo '"' cs).length + 1)
  else (.error .unterminatedString, (upTo '"' cs).length)

/-- The character between an opener and `close`, which is no line feed. -/
def enclosed? (close : Char) : List Char → Option Char
  | c :: d :: _ => if c ≠ '\n' ∧ d = close then some c else none
  | _ => none

/-- What follows an opening single quote. A broken literal is taken up to the next single quote,
or to the end of the row if there is none. -/
def quotedChar (cs : List Char) : Finding × Nat :=
  match enclosed? '\'' cs with
  | some c => (.token (.char c), 2)
  | none =>
    let text := upTo '\'' cs
    (.error .unterminatedChar, if closes '\'' cs then text.length + 1 else text.length)

/-- What follows an opening square bracket. -/
def bracketedChar (cs : List Char) : Finding × Nat :=
  match enclosed? ']' cs with
  | some c => (.token (.char c), 2)
  | none => (.error (.unexpectedChar '['), 0)

/-- The digits behind a decimal point, if a point with a digit behind it comes first. -/
def fraction : List Char → List Char
  | '.' :: cs => cs.takeWhile Char.isDigit
  | _ => []

/-- A whole number literal, which has to fit in 64 bits with a sign. -/
def intFinding (ds : List Char) : Finding :=
  if Decimal.numeralValue ds < Nat.pow 2 63 then
    .token (.int (Int64.ofNat (Decimal.numeralValue ds)))
  else .error (.malformedNumber (String.ofList ds))

/-- A literal with a fraction: the nearest double. -/
def floatKind (ds fs : List Char) : Kind :=
  .float (Decimal.Binary.floatOfWord false
    (Decimal.nearestDecimal (Decimal.numeralValue (ds ++ fs)) (-(fs.length : Int))))

/-- What starts with the digit `c`. -/
def number (c : Char) (cs : List Char) : Finding × Nat :=
  let ds := cs.takeWhile Char.isDigit
  let fs := fraction (cs.dropWhile Char.isDigit)
  let n := if fs.isEmpty then ds.length else ds.length + 1 + fs.length
  let tail := (cs.drop n).takeWhile isWordChar
  if !tail.isEmpty then (.error .charAfterNumber, n + tail.length)
  else if fs.isEmpty then (intFinding (c :: ds), n)
  else (.token (floatKind (c :: ds) fs), n)

/-- The number of characters up to the end of `word`, if it is the next word of the row. -/
def follows? (word cs : List Char) : Option Nat :=
  let gap := cs.takeWhile isGap
  let rest := cs.dropWhile isGap
  if word.isPrefixOf rest && !((rest.drop word.length).head?.any isWordChar) then
    some (gap.length + word.length)
  else none

/-- The kind of a word, and the number of characters of `cs`, the rest of the source behind it, that
belong to the same keyword. -/
def wordKind (word cs : List Char) : Kind × Nat :=
  if word = "KUNG".toList then
    match follows? "DILI".toList cs with
    | some n => (.mark .kungDili, n)
    | none =>
      match follows? "WALA".toList cs with
      | some n => (.mark .kungWala, n)
      | none => (.mark .kung, 0)
  else if word = "ALANG".toList then
    match follows? "SA".toList cs with
    | some n => (.mark .alangSa, n)
    | none => (.identifier (String.ofList word), 0)
  else
    match Mark.ofWord? (String.ofList word) with
    | some m => (.mark m, 0)
    | none => (.identifier (String.ofList word), 0)

/-- What starts with the letter or underscore `c`. -/
def word (c : Char) (cs : List Char) : Finding × Nat :=
  let more := cs.takeWhile isWordChar
  let (kind, n) := wordKind (c :: more) (cs.dropWhile isWordChar)
  (.token kind, more.length + n)

/-- The characters in front of the next line feed. -/
def restOfRow (cs : List Char) : List Char :=
  cs.takeWhile (· ≠ '\n')

/-- What starts with the character `c` when `cs` is the rest of the source, and how many characters
of `cs` belong to it. -/
def first (c : Char) (cs : List Char) : Finding × Nat :=
  match mark? c cs with
  | some (m, n) => (.token (.mark m), n)
  | none =>
    if c = ' ' ∨ c = '\t' ∨ c = '\r' then (.skip, 0)
    else if c = '\n' then (.lineFeed, 0)
    else if c = '#' then (.skip, (restOfRow cs).length)
    else if c = '$' then (.token (.char '\n'), 0)
    else if c = '"' then string cs
    else if c = '\'' then quotedChar cs
    else if c = '[' then bracketedChar cs
    else if c.isDigit then number c cs
    else if isWordStart c then word c cs
    else (.error (.unexpectedChar c), 0)

/-- The pieces of a text of which the first `skip` characters belong to a piece before it. -/
def cut : Nat → List Char → List Piece
  | _, [] => []
  | 0, c :: cs => ⟨(first c cs).1, c :: cs.take (first c cs).2⟩ :: cut (first c cs).2 cs
  | skip + 1, _ :: cs => cut skip cs

/-- The pieces of a source. -/
def pieces (cs : List Char) : List Piece :=
  cut 0 cs

/-- Characters that belong to a piece before play no part. -/
theorem cut_eq_pieces_drop (skip : Nat) (cs : List Char) : cut skip cs = pieces (cs.drop skip) := by
  induction cs generalizing skip with
  | nil => cases skip <;> rfl
  | cons c cs ih =>
    cases skip with
    | zero => rfl
    | succ n => exact ih n

/-- Cutting off the first piece of a source. -/
theorem pieces_cons (c : Char) (cs : List Char) :
    pieces (c :: cs) = ⟨(first c cs).1, c :: cs.take (first c cs).2⟩ ::
      pieces (cs.drop (first c cs).2) := by
  rw [← cut_eq_pieces_drop]
  rfl

/-- The pieces of a source, one after another, are the source. -/
theorem flatMap_text_pieces (cs : List Char) : (pieces cs).flatMap Piece.text = cs := by
  induction h : cs.length using Nat.strongRecOn generalizing cs with
  | _ n ih =>
    cases cs with
    | nil => rfl
    | cons c cs =>
      rw [pieces_cons, List.flatMap_cons]
      have rest := ih (cs.drop (first c cs).2).length (by
        subst h
        simp only [List.length_drop, List.length_cons]
        omega) _ rfl
      rw [rest, List.cons_append, List.take_append_drop]

end Piece

end Sugod
