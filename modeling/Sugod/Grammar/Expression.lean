import Sugod.Grammar.Parser
import Sugod.Tree

/-!
# The grammar of expressions

Expressions have six levels of binary operators, from the loosest to the tightest, each of which
groups from the left. Tighter than all of them are the unary operators, then calls, then literals,
names and expressions in parentheses. An assignment is looser than all of them, groups from the
right and has a name on its left.

```
assignment := IDENT "=" assignment | or
or         := and ("O" and)*
and        := equality ("UG" equality)*
equality   := comparison (("==" | "<>") comparison)*
comparison := term ((">" | ">=" | "<" | "<=") term)*
term       := factor (("+" | "-" | "&") factor)*
factor     := unary (("*" | "/" | "%") unary)*
unary      := ("!" | "-" | "+") unary | call
call       := primary ("(" (assignment ("," assignment)*)? ")")*
primary    := literal | IDENT | "(" assignment ")"
```

Every parser is given a number of steps and hands on one less. Twenty-four steps for every token are
enough, because fewer parsers than that are entered before one of them takes a token.
-/

set_option autoImplicit false

namespace Sugod

/-- A level of binary operators. -/
inductive Level where
  | or
  | and
  | equality
  | comparison
  | term
  | factor
  deriving DecidableEq

namespace Level

/-- The operators of a level. -/
def marks : Level → List Mark
  | or => [.o]
  | and => [.ug]
  | equality => [.notEqual, .equalEqual]
  | comparison => [.greater, .greaterEqual, .less, .lessEqual]
  | term => [.plus, .minus, .ampersand]
  | factor => [.slash, .star, .percent]

/-- The next tighter level of binary operators. -/
def tighter? : Level → Option Level
  | or => some and
  | and => some equality
  | equality => some comparison
  | comparison => some term
  | term => some factor
  | factor => none

/-- The expression that an operator of a level makes of its operands. -/
def node : Level → Expr → Token → Expr → Expr
  | or => .logical
  | and => .logical
  | _ => .binary

end Level

/-- The largest number of arguments of a call and of parameters of a function. -/
def maxArity : Nat :=
  255

namespace Grammar

/-- The value of a token that is a literal. -/
def literal? : Kind → Option Value
  | .mark .oo => some (.bool true)
  | .mark .dili => some (.bool false)
  | .int n => some (.int n)
  | .float x => some (.float x)
  | .char c => some (.char c)
  | .string s => some (.str s)
  | _ => none

/-- A literal or a name that is a token by itself. -/
def atom? (t : Token) : Option Expr :=
  match t.kind with
  | .identifier _ => some (.var t)
  | kind => (literal? kind).map fun v => .literal v t.line

/-- The assignment of a value to what stands on the left of an equals sign, which has to be a
name. -/
def assignTo (equals : Token) (value : Expr) : Expr → Parser Expr
  | .var name => pure (.assign name value)
  | _ => Parser.failAt equals.line .notAssignable

mutual

/-- Parses an expression of the loosest kind. -/
def assignment : Nat → Parser Expr
  | 0 => Parser.spent
  | n + 1 => do
    let e ← level n .or
    match ← Parser.take? [.equal] with
    | none => pure e
    | some equals =>
      let value ← assignment n
      assignTo equals value e

/-- Parses an expression of a level of binary operators. -/
def level : Nat → Level → Parser Expr
  | 0, _ => Parser.spent
  | n + 1, l => do
    let e ← operand n l
    chain n l e

/-- Parses an operand of a level: an expression of the next tighter kind. -/
def operand : Nat → Level → Parser Expr
  | 0, _ => Parser.spent
  | n + 1, l =>
    match l.tighter? with
    | some l' => level n l'
    | none => unary n

/-- Parses the operators of a level and the operands behind them; what stands in front is known. -/
def chain : Nat → Level → Expr → Parser Expr
  | 0, _, _ => Parser.spent
  | n + 1, l, left => do
    match ← Parser.take? l.marks with
    | none => pure left
    | some op =>
      let right ← operand n l
      chain n l (l.node left op right)

/-- Parses an expression with unary operators in front. -/
def unary : Nat → Parser Expr
  | 0 => Parser.spent
  | n + 1 => do
    match ← Parser.take? [.bang, .minus, .plus] with
    | some op =>
      let e ← unary n
      pure (.unary op e)
    | none =>
      let e ← primary n
      calls n e

/-- Parses the argument lists behind what is called. -/
def calls : Nat → Expr → Parser Expr
  | 0, _ => Parser.spent
  | n + 1, callee => do
    match ← Parser.take? [.leftParen] with
    | none => pure callee
    | some _ =>
      let args ← Parser.unlessNext .rightParen [] (arguments n 0)
      let paren ← Parser.expect .rightParen .afterArguments
      calls n (.call callee paren args)

/-- Parses at least one argument; `count` arguments stand in front. -/
def arguments : Nat → Nat → Parser (List Expr)
  | 0, _ => Parser.spent
  | n + 1, count =>
    if maxArity ≤ count then Parser.fail fun _ => .tooManyArguments
    else do
      let e ← assignment n
      match ← Parser.take? [.comma] with
      | none => pure [e]
      | some _ =>
        let es ← arguments n (count + 1)
        pure (e :: es)

/-- Parses a literal, a name or an expression in parentheses. -/
def primary : Nat → Parser Expr
  | 0 => Parser.spent
  | n + 1 => do
    match ← Parser.peek with
    | none => Parser.fail .expectedExpression
    | some t =>
      match atom? t with
      | some e =>
        Parser.skip
        pure e
      | none =>
        if t.is .leftParen then do
          Parser.skip
          let e ← assignment n
          let _ ← Parser.expect .rightParen .afterExpression
          pure (.grouping e)
        else Parser.fail .expectedExpression

end

end Grammar

end Sugod
