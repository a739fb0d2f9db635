import Sugod.Value
import Sugod.Console

/-!
# Faults

What can go wrong while a program runs. A cause says what happened in terms of names, types and
what was found; the wording is in `Cause.message` alone. A fault is a cause at a line.
-/

set_option autoImplicit false

namespace Sugod

/-- Why a run fails. -/
inductive Cause where
  | undefinedVariable (name : String)
  | alreadyDeclared (name : String)
  | immutable (name : String)
  | uninitialized (name : String)
  | assignMismatch (name value : String) (found : Tag) (expected : Ty)
  | declareMismatch (value : String) (found : Tag) (expected : Ty)
  | operandMismatch (op : String) (left right : Tag)
  | numberOperand (op : String) (found : Tag)
  | booleanOperand (op : String) (found : Tag)
  | nonBooleanCondition (found : Tag)
  | divideByZero
  | notCallable (found : Tag)
  | wrongArgumentCount (expected got : Nat)
  | argumentMismatch (function param : String) (expected : Ty) (found : Tag)
  | builtinArgument (function : Builtin) (found : Tag)
  | returnMismatch (function : String) (expected : Ty) (found : Tag)
  | missingReturnValue (function : String) (expected : Ty)
  | voidReturn (function : String)
  | unexpectedReturn
  | stackOverflow (limit : Nat)
  | tooManyValues (expected : Nat)
  | tooFewValues (expected received : Nat)
  | inputUnavailable
  | console (failure : ConsoleFailure)
  deriving DecidableEq

/-- The wording of a cause. -/
def Cause.message : Cause → String
  | undefinedVariable name => "Undefined variable '" ++ name ++ "'."
  | alreadyDeclared name => "Variable '" ++ name ++ "' is already defined in this scope."
  | immutable name => "Cannot assign to immutable variable '" ++ name ++ "'."
  | uninitialized name => "Variable '" ++ name ++ "' is used before it is assigned a value."
  | assignMismatch name value found expected =>
    "Type mismatch: cannot assign value " ++ value ++ " (" ++ found.word ++ ") to variable '" ++
      name ++ "' of type " ++ expected.keyword ++ "."
  | declareMismatch value found expected =>
    "Value " ++ value ++ " (" ++ found.word ++ ") is not of type " ++ expected.keyword ++ "."
  | operandMismatch op left right =>
    "Operands of '" ++ op ++ "' must both be NUMERO or both be TIPIK but found " ++ left.word ++
      " and " ++ right.word ++ "."
  | numberOperand op found =>
    "Operand of '" ++ op ++ "' must be NUMERO or TIPIK but found " ++ found.word ++ "."
  | booleanOperand op found =>
    "Operand of '" ++ op ++ "' must be TINUOD but found " ++ found.word ++ "."
  | nonBooleanCondition found => "Condition must be TINUOD but found " ++ found.word ++ "."
  | divideByZero => "Cannot divide by zero."
  | notCallable found => "Can only call functions, not " ++ found.word ++ "."
  | wrongArgumentCount expected got =>
    "Expected " ++ Decimal.natText expected ++ " arguments but got " ++ Decimal.natText got ++ "."
  | argumentMismatch function param expected found =>
    "Argument '" ++ param ++ "' of '" ++ function ++ "' must be " ++ expected.keyword ++
      " but found " ++ found.word ++ "."
  | builtinArgument function found =>
    "Argument of '" ++ function.name ++ "' must be NUMERO or TIPIK but found " ++ found.word ++ "."
  | returnMismatch function expected found =>
    "Function '" ++ function ++ "' must return " ++ expected.keyword ++ " but returned " ++
      found.word ++ "."
  | missingReturnValue function expected =>
    "Function '" ++ function ++ "' must return a value of type " ++ expected.keyword ++ "."
  | voidReturn function =>
    "Function '" ++ function ++ "' has no return type and cannot return a value."
  | unexpectedReturn => "IULI is only allowed inside a function."
  | stackOverflow limit =>
    "Stack overflow: more than " ++ Decimal.natText limit ++ " nested function calls."
  | tooManyValues expected =>
    "Expected " ++ Decimal.natText expected ++ " value(s) but received more than " ++
      Decimal.natText expected ++ "."
  | tooFewValues expected received =>
    "Expected " ++ Decimal.natText expected ++ " value(s) but received " ++
      Decimal.natText received ++ "."
  | inputUnavailable => "No input available for DAWAT."
  | console failure => "Console error: " ++ failure.message

/-- A cause and the line it is reported at. -/
structure Fault where
  cause : Cause
  line : Nat
  deriving DecidableEq

/-- The report of a fault: its line and its cause. -/
def Fault.message (f : Fault) : String :=
  "[Line " ++ Decimal.natText f.line ++ "] Runtime Error : " ++ f.cause.message

end Sugod
