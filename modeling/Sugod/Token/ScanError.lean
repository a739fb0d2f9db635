import Sugod.Decimal.Numeral

/-!
# Errors of scanning

What can be wrong with the characters of a source. Scanning goes on behind an error, so that one
source can have several.
-/

set_option autoImplicit false

namespace Sugod

/-- Why some characters are no token. -/
inductive ScanCause where
  | unexpectedChar (c : Char)
  | unterminatedString
  | unterminatedChar
  | charAfterNumber
  | malformedNumber (text : String)
  deriving DecidableEq

/-- The wording of a cause. -/
def ScanCause.message : ScanCause → String
  | unexpectedChar c => "Unexpected character '" ++ c.toString ++ "'."
  | unterminatedString => "Unterminated string."
  | unterminatedChar => "Unterminated character literal."
  | charAfterNumber => "Unexpected character after number."
  | malformedNumber text => "Malformed number '" ++ text ++ "'."

/-- An error of scanning and the line it starts on. -/
structure ScanError where
  cause : ScanCause
  line : Nat
  deriving DecidableEq

/-- The report of an error: its line and its cause. -/
def ScanError.message (e : ScanError) : String :=
  "[Line " ++ Decimal.natText e.line ++ "] Syntax Error : " ++ e.cause.message

end Sugod
