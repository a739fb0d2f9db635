import Sugod.Ty

/-!
# Tokens

A token is a kind, the text it was written as and the line it starts on. Most kinds carry no
payload: punctuation, operators and keywords are `Mark`s, which can be compared. The remaining
kinds are names, literals that carry their value, and the end of the input.

A keyword mark is named by the word it stands for.
-/

set_option autoImplicit false

namespace Sugod

/-- A kind of token without a payload: punctuation, an operator or a keyword. -/
inductive Mark where
  | leftParen
  | rightParen
  | leftBrace
  | rightBrace
  | comma
  | colon
  | plus
  | minus
  | star
  | slash
  | percent
  | ampersand
  | bang
  | equal
  | equalEqual
  | notEqual
  | greater
  | greaterEqual
  | less
  | lessEqual
  | oo
  | dili
  | sugod
  | katapusan
  | mugna
  | pirmi
  | ty (t : Ty)
  | ipakita
  | dawat
  | kung
  | kungDili
  | kungWala
  | alangSa
  | samtang
  | pundok
  | ug
  | o
  | buhat
  | iuli
  deriving DecidableEq

namespace Mark

/-- How a mark is named in a message: punctuation in quotes, a keyword as it is written. -/
def spelling : Mark → String
  | leftParen => "'('"
  | rightParen => "')'"
  | leftBrace => "'\x7b'"
  | rightBrace => "'\x7d'"
  | comma => "','"
  | colon => "':'"
  | plus => "'+'"
  | minus => "'-'"
  | star => "'*'"
  | slash => "'/'"
  | percent => "'%'"
  | ampersand => "'&'"
  | bang => "'!'"
  | equal => "'='"
  | equalEqual => "'=='"
  | notEqual => "'<>'"
  | greater => "'>'"
  | greaterEqual => "'>='"
  | less => "'<'"
  | lessEqual => "'<='"
  | oo => "OO"
  | dili => "DILI"
  | sugod => "SUGOD"
  | katapusan => "KATAPUSAN"
  | mugna => "MUGNA"
  | pirmi => "PIRMI"
  | ty t => t.keyword
  | ipakita => "IPAKITA"
  | dawat => "DAWAT"
  | kung => "KUNG"
  | kungDili => "KUNG DILI"
  | kungWala => "KUNG WALA"
  | alangSa => "ALANG SA"
  | samtang => "SAMTANG"
  | pundok => "PUNDOK"
  | ug => "UG"
  | o => "O"
  | buhat => "BUHAT"
  | iuli => "IULI"

/-- The keywords of one word. The three keywords of two words are no entries: they are put
together from their words when a row of text is cut into pieces. -/
def words : List (String × Mark) :=
  [("SUGOD", sugod), ("KATAPUSAN", katapusan), ("MUGNA", mugna), ("PIRMI", pirmi),
   ("NUMERO", ty .int), ("TIPIK", ty .float), ("LETRA", ty .char), ("TINUOD", ty .bool),
   ("PULONG", ty .string), ("IPAKITA", ipakita), ("DAWAT", dawat), ("KUNG", kung),
   ("SAMTANG", samtang), ("PUNDOK", pundok), ("UG", ug), ("O", o), ("OO", oo), ("DILI", dili),
   ("BUHAT", buhat), ("IULI", iuli)]

/-- The mark that a single word stands for, if it is a keyword. -/
def ofWord? (word : String) : Option Mark :=
  words.lookup word

/-- The type that a mark spells. -/
def ty? : Mark → Option Ty
  | ty t => some t
  | _ => none

end Mark

/-- What a token is: a mark, a name, a literal with its value, or the end of the input. -/
inductive Kind where
  | mark (m : Mark)
  | identifier (name : String)
  | string (text : String)
  | int (value : Int64)
  | float (value : Float)
  | char (value : Char)
  | eof

namespace Kind

/-- How a kind is named in a message. -/
def spelling : Kind → String
  | mark m => m.spelling
  | identifier _ => "identifier"
  | string _ => "string literal"
  | int _ => "integer literal"
  | float _ => "float literal"
  | char _ => "character literal"
  | eof => "end of input"

/-- The type that a kind spells. -/
def ty? : Kind → Option Ty
  | mark m => m.ty?
  | _ => none

/-- Whether a kind is the given mark. -/
def is (m : Mark) : Kind → Bool
  | mark k => k = m
  | _ => false

/-- Whether a kind is the end of the input. -/
def isEof : Kind → Bool
  | eof => true
  | _ => false

/-- Equality of kinds, payloads included. Fractions compare as numbers: a NaN differs from
itself and the two zeros are equal. -/
def equal : Kind → Kind → Bool
  | mark a, mark b => a = b
  | identifier a, identifier b => a = b
  | string a, string b => a = b
  | int a, int b => a = b
  | float a, float b => a == b
  | char a, char b => a = b
  | eof, eof => true
  | _, _ => false

@[simp] theorem is_iff {m : Mark} {k : Kind} : k.is m = true ↔ k = mark m := by
  cases k <;> simp [is]

@[simp] theorem isEof_iff {k : Kind} : k.isEof = true ↔ k = eof := by
  cases k <;> simp [isEof]

end Kind

/-- A token: its kind, the text it was written as and the line it starts on, counted from 1. -/
structure Token where
  kind : Kind
  lexeme : String
  line : Nat

namespace Token

/-- How a token that was found is shown in a message. -/
def describe (t : Token) : String :=
  if t.kind.isEof then "end of input" else "'" ++ t.lexeme ++ "'"

/-- Whether a token is the given mark. -/
def is (m : Mark) (t : Token) : Bool :=
  t.kind.is m

/-- Equality of tokens: kind, text and line. -/
def equal (a b : Token) : Bool :=
  a.kind.equal b.kind && a.lexeme = b.lexeme && a.line = b.line

end Token

end Sugod
