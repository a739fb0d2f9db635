import Sugod.Fault
import Sugod.Tree.Equal
import Sugod.Decimal.Remainder

/-!
# Operators

What the operators make of values. Arithmetic and order need two operands of one numeric type;
nothing is converted. Whole numbers are 64 bits wide and wrap around, their division goes toward
zero, and a remainder has the sign of the dividend. Joining and comparing for equality take any
two values.
-/

set_option autoImplicit false

namespace Sugod.Operator

/-- An operator on whole numbers, if the mark is one. -/
def onInts : Mark → Int64 → Int64 → Option (Except Cause Value)
  | .plus, a, b => some (.ok (.int (a + b)))
  | .minus, a, b => some (.ok (.int (a - b)))
  | .star, a, b => some (.ok (.int (a * b)))
  | .slash, a, b => some (if b = 0 then .error .divideByZero else .ok (.int (a / b)))
  | .percent, a, b => some (if b = 0 then .error .divideByZero else .ok (.int (a % b)))
  | .less, a, b => some (.ok (.bool (a < b)))
  | .lessEqual, a, b => some (.ok (.bool (a ≤ b)))
  | .greater, a, b => some (.ok (.bool (b < a)))
  | .greaterEqual, a, b => some (.ok (.bool (b ≤ a)))
  | _, _, _ => none

/-- An operator on fractions, if the mark is one. -/
def onFloats : Mark → Float → Float → Option (Except Cause Value)
  | .plus, a, b => some (.ok (.float (a + b)))
  | .minus, a, b => some (.ok (.float (a - b)))
  | .star, a, b => some (.ok (.float (a * b)))
  | .slash, a, b => some (if b == 0 then .error .divideByZero else .ok (.float (a / b)))
  | .percent, a, b =>
    some (if b == 0 then .error .divideByZero else .ok (.float (Decimal.remainder a b)))
  | .less, a, b => some (.ok (.bool (a < b)))
  | .lessEqual, a, b => some (.ok (.bool (a ≤ b)))
  | .greater, a, b => some (.ok (.bool (b < a)))
  | .greaterEqual, a, b => some (.ok (.bool (b ≤ a)))
  | _, _, _ => none

/-- An operator on two numbers of one type, if the operands and the mark are such. -/
def onNumbers (m : Mark) : Value → Value → Option (Except Cause Value)
  | .int a, .int b => onInts m a b
  | .float a, .float b => onFloats m a b
  | _, _ => none

/-- The report for operands that an operator cannot take. -/
def mismatch (op : Token) (l r : Value) : Except Cause Value :=
  .error (.operandMismatch op.lexeme l.tag r.tag)

/-- The value of `l op r`. -/
def binary (op : Token) (l r : Value) : Except Cause Value :=
  match op.kind with
  | .mark .ampersand => .ok (.str (l.text ++ r.text))
  | .mark .equalEqual => .ok (.bool (l.equal r))
  | .mark .notEqual => .ok (.bool (!l.equal r))
  | .mark m => (onNumbers m l r).getD (mismatch op l r)
  | _ => mismatch op l r

/-- The value of `op v`. -/
def unary (op : Token) (v : Value) : Except Cause Value :=
  match op.kind, v with
  | .mark .bang, .bool b => .ok (.bool (!b))
  | .mark .bang, v => .error (.booleanOperand op.lexeme v.tag)
  | .mark .minus, .int n => .ok (.int (-n))
  | .mark .minus, .float x => .ok (.float (-x))
  | .mark .plus, .int n => .ok (.int n)
  | .mark .plus, .float x => .ok (.float x)
  | _, v => .error (.numberOperand op.lexeme v.tag)

/-- Whether a logical operator is settled by the truth value of its left operand. -/
def settles (op : Token) (left : Bool) : Bool :=
  if left then op.is .o else op.is .ug

end Sugod.Operator
