import Sugod.Token
import Sugod.Decimal.Numeral

/-!
# Errors of parsing

What can be wrong with the tokens of a program. Parsing stops at the first error. An error says
what was expected, at which place of the grammar, and what was found.
-/

set_option autoImplicit false

namespace Sugod

/-- A place of the grammar at which a certain token has to stand. -/
inductive Place where
  | programStart
  | programEnd
  | variableName
  | functionName
  | afterFunctionName
  | parameterName
  | afterParameters
  | afterIpakita
  | afterDawat
  | dawatName
  | nextDawatName
  | beforeCondition
  | afterCondition
  | afterSamtang
  | afterAlangSa
  | loopName
  | loopInitializer
  | afterLoopInitializer
  | afterLoopCondition
  | loopIncrement
  | afterLoopIncrement
  | beforeBlock
  | afterPundok
  | afterReturn
  | blockEnd
  | afterArguments
  | afterExpression
  deriving DecidableEq

/-- The words for a place in reports. -/
def Place.phrase : Place → String
  | programStart => "at the start of the program"
  | programEnd => "at the end of the program"
  | variableName => "as variable name"
  | functionName => "as function name"
  | afterFunctionName => "after function name"
  | parameterName => "as parameter name"
  | afterParameters => "after parameters"
  | afterIpakita => "after IPAKITA"
  | afterDawat => "after DAWAT"
  | dawatName => "after DAWAT:"
  | nextDawatName => "after ','"
  | beforeCondition => "before condition"
  | afterCondition => "after condition"
  | afterSamtang => "after SAMTANG"
  | afterAlangSa => "after ALANG SA"
  | loopName => "as loop initializer"
  | loopInitializer => "in loop initializer"
  | afterLoopInitializer => "after loop initializer"
  | afterLoopCondition => "after loop condition"
  | loopIncrement => "as loop increment"
  | afterLoopIncrement => "after loop increment"
  | beforeBlock => "before block"
  | afterPundok => "after PUNDOK"
  | afterReturn => "after return statement"
  | blockEnd => "to close block"
  | afterArguments => "after arguments"
  | afterExpression => "after expression"

/-- Why tokens are no program. -/
inductive ParseCause where
  | expectedMark (expected : Mark) (place : Place) (found : String)
  | expectedIdentifier (place : Place) (found : String)
  | expectedType (found : String)
  | expectedExpression (found : String)
  | notAssignable
  | multiplePrograms
  | misplacedFunction
  | outsideProgram
  | declarationAfterStatement
  | elseWithoutElseIf
  | returnOutsideFunction
  | missingReturn (function : String) (ty : Ty)
  | invalidIncrement (found : String)
  | tooManyArguments
  | tooManyParameters
  deriving DecidableEq

/-- The wording of a cause. -/
def ParseCause.message : ParseCause → String
  | expectedMark expected place found =>
    "Expected " ++ expected.spelling ++ " " ++ place.phrase ++ " but found " ++ found ++ "."
  | expectedIdentifier place found =>
    "Expected an identifier " ++ place.phrase ++ " but found " ++ found ++ "."
  | expectedType found =>
    "Expected a type (NUMERO, TIPIK, LETRA, TINUOD or PULONG) but found " ++ found ++ "."
  | expectedExpression found => "Expected expression but found " ++ found ++ "."
  | notAssignable => "Invalid assignment target."
  | multiplePrograms => "Only one SUGOD/KATAPUSAN program block is permitted."
  | misplacedFunction => "Functions must be declared before SUGOD."
  | outsideProgram => "Statement outside of the SUGOD/KATAPUSAN program block."
  | declarationAfterStatement => "Variable declarations must come before other statements."
  | elseWithoutElseIf => "KUNG WALA must follow at least one KUNG DILI clause."
  | returnOutsideFunction => "IULI is only allowed inside a function."
  | missingReturn function ty =>
    "Function '" ++ function ++ "' declares return type " ++ ty.keyword ++
      " but does not end with IULI."
  | invalidIncrement found =>
    "Expected 'name++' or 'name--' as the loop increment but found " ++ found ++ "."
  | tooManyArguments => "Can't have more than 255 arguments."
  | tooManyParameters => "Can't have more than 255 parameters."

/-- An error of parsing and the line it is reported at. -/
structure ParseError where
  cause : ParseCause
  line : Nat
  deriving DecidableEq

/-- The report of an error: its line and its cause. -/
def ParseError.message (e : ParseError) : String :=
  "[Line " ++ Decimal.natText e.line ++ "] Syntax Error : " ++ e.cause.message

end Sugod
