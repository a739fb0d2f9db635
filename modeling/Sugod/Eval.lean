import Sugod.Action
import Sugod.Operator
import Sugod.Builtin.Call
import Sugod.Value.Entry

/-!
# Evaluation

The rules by which expressions have values and statements take effect. Every rule is given a number
of steps and hands on one less, so that running is defined for every program; a program that does
not end spends any number of steps.

* Operands, arguments and parts of a statement are evaluated from left to right.
* A block, a branch and every round of a loop has a scope of its own under the current one; a
  counting loop has one more around it for its counter.
* The body of a function runs in a scope under the global one, so it sees its parameters and the
  global variables, and never the variables of its caller.
-/

set_option autoImplicit false

namespace Sugod

/-- The largest number of function calls that a program can be inside of. -/
def maxCallDepth : Nat :=
  1024

namespace FunDecl

/-- Checks the types of arguments against the parameters, from left to right. -/
def checkTypes (decl : FunDecl) : List (Param × Value) → Except Cause Unit
  | [] => .ok ()
  | (param, v) :: rest =>
    if v.ty? = some param.ty then decl.checkTypes rest
    else .error (.argumentMismatch decl.name.lexeme param.name.lexeme param.ty v.tag)

/-- Checks whether a function can be called: the number of arguments, their types, and the number
of calls that the program is inside of. -/
def check (decl : FunDecl) (args : List Value) (callDepth : Nat) : Except Cause Unit :=
  if args.length ≠ decl.params.length then
    .error (.wrongArgumentCount decl.params.length args.length)
  else
    match decl.checkTypes (decl.params.zip args) with
    | .error c => .error c
    | .ok () =>
      if maxCallDepth ≤ callDepth then .error (.stackOverflow maxCallDepth) else .ok ()

/-- The value of a call whose body has ended in a given way. -/
def result (decl : FunDecl) : Except Interrupt Unit → Except Fault Value
  | .error (.fault f) => .error f
  | .ok () =>
    match decl.returnTy with
    | none => .ok .nil
    | some ty => .error ⟨.missingReturnValue decl.name.lexeme ty, decl.name.line⟩
  | .error (.returned none line) =>
    match decl.returnTy with
    | none => .ok .nil
    | some ty => .error ⟨.missingReturnValue decl.name.lexeme ty, line⟩
  | .error (.returned (some v) line) =>
    match decl.returnTy with
    | none => .error ⟨.voidReturn decl.name.lexeme, line⟩
    | some ty =>
      if v.ty? = some ty then .ok v
      else .error ⟨.returnMismatch decl.name.lexeme ty v.tag, line⟩

end FunDecl

namespace Eval

/-- Declares the parameters of a function with their arguments. -/
def bindParams : List (Param × Value) → Action Fault Unit
  | [] => pure ()
  | (param, v) :: rest => do
    Action.declare param.name ⟨some param.ty, some v, true⟩
    bindParams rest

/-- The initial value of a variable, which must have the type of the variable. -/
def checkInit (ty : Ty) (v : Value) : Except Cause Value :=
  if v.ty? = some ty then .ok v else .error (.declareMismatch v.quoted v.tag ty)

/-- The truth value of a condition. -/
def truth (v : Value) : Except Cause Bool :=
  match v.truth? with
  | some b => .ok b
  | none => .error (.nonBooleanCondition v.tag)

/-- The values of an input line for a number of variables. -/
def entries (count : Nat) (line : String) : Except Cause (List Value) :=
  let values := Entry.values line
  if count < values.length then .error (.tooManyValues count)
  else if values.length < count then .error (.tooFewValues count values.length)
  else .ok values

/-- Takes an input line and assigns its values to variables. Reports about the line itself are made
at the line of the first variable. -/
def accept (names : List Token) : Action Fault Unit := do
  let line := (names.head?.map Token.line).getD 0
  let text ← Action.readLine line
  let values ← Action.ofExcept line (entries names.length text)
  Action.assignAll (names.zip values)

mutual

/-- The value of an expression. -/
def expr : Nat → Expr → Action Fault Value
  | 0, _ => Action.spent
  | _ + 1, .literal v _ => pure v
  | n + 1, .grouping inner => expr n inner
  | _ + 1, .var name => Action.getVar name
  | n + 1, .assign name value => do
    let v ← expr n value
    Action.assign name v
    pure v
  | n + 1, .unary op operand => do
    let v ← expr n operand
    Action.ofExcept op.line (Operator.unary op v)
  | n + 1, .binary left op right => do
    let l ← expr n left
    let r ← expr n right
    Action.ofExcept op.line (Operator.binary op l r)
  | n + 1, .logical left op right => do
    let l ← expr n left
    match l.truth? with
    | none => Action.stop ⟨.booleanOperand op.lexeme l.tag, op.line⟩
    | some b => if Operator.settles op b then pure l else expr n right
  | n + 1, .call callee paren args => do
    let f ← expr n callee
    let vs ← exprs n args
    match f with
    | .fn decl => call n decl vs paren.line
    | .builtin b => Action.onConsole paren.line (b.call vs)
    | v => Action.stop ⟨.notCallable v.tag, paren.line⟩

/-- The values of expressions, from left to right. -/
def exprs : Nat → List Expr → Action Fault (List Value)
  | 0, _ => Action.spent
  | _ + 1, [] => pure []
  | n + 1, e :: es => do
    let v ← expr n e
    let vs ← exprs n es
    pure (v :: vs)

/-- The value of a call of a user function. -/
def call : Nat → FunDecl → List Value → Nat → Action Fault Value
  | 0, _, _, _ => Action.spent
  | n + 1, decl, args, line => do
    Action.checked line (decl.check args)
    Action.settle
      (Action.called do
        Action.asStmt (bindParams (decl.params.zip args))
        stmts n decl.body)
      decl.result

/-- The truth value of a condition. -/
def cond : Nat → Expr → Action Fault Bool
  | 0, _ => Action.spent
  | n + 1, e => do
    let v ← expr n e
    Action.ofExcept e.line (truth v)

/-- Executes a statement. -/
def stmt : Nat → Stmt → Action Interrupt Unit
  | 0, _ => Action.spent
  | n + 1, .display e => Action.asStmt do
    let v ← expr n e
    Action.display e.line v.text
  | n + 1, .expr e => Action.asStmt do
    let _ ← expr n e
    pure ()
  | _ + 1, .accept names => Action.asStmt (accept names)
  | _ + 1, .declare name ty none mutable =>
    Action.asStmt (Action.declare name ⟨some ty, none, mutable⟩)
  | n + 1, .declare name ty (some init) mutable => Action.asStmt do
    let v ← expr n init
    let v ← Action.ofExcept name.line (checkInit ty v)
    Action.declare name ⟨some ty, some v, mutable⟩
  | n + 1, .block body => Action.nested (stmts n body)
  | n + 1, .choose first others otherwise => branches n (first :: others) otherwise
  | n + 1, .whileLoop c body => loop n c body none
  | n + 1, .forLoop init c step body => Action.nested do
    stmt n init
    loop n c body (some step)
  | _ + 1, .ret keyword none => Action.stop (.returned none keyword.line)
  | n + 1, .ret keyword (some e) => do
    let v ← Action.asStmt (expr n e)
    Action.stop (.returned (some v) keyword.line)
  | _ + 1, .fn decl => Action.asStmt (Action.declare decl.name ⟨none, some (.fn decl), false⟩)

/-- Executes statements one after another. -/
def stmts : Nat → List Stmt → Action Interrupt Unit
  | 0, _ => Action.spent
  | _ + 1, [] => pure ()
  | n + 1, s :: ss => do
    stmt n s
    stmts n ss

/-- Executes the first branch whose condition holds, or what is there otherwise. -/
def branches : Nat → List Branch → Option (List Stmt) → Action Interrupt Unit
  | 0, _, _ => Action.spent
  | _ + 1, [], none => pure ()
  | n + 1, [], some body => Action.nested (stmts n body)
  | n + 1, b :: bs, otherwise => do
    if ← Action.asStmt (cond n b.cond) then Action.nested (stmts n b.body)
    else branches n bs otherwise

/-- Executes a body as long as a condition holds; behind every round there may be an increment. -/
def loop : Nat → Expr → List Stmt → Option Expr → Action Interrupt Unit
  | 0, _, _, _ => Action.spent
  | n + 1, c, body, step => do
    if ← Action.asStmt (cond n c) then
      Action.nested (stmts n body)
      increment n step
      loop n c body step
    else pure ()

/-- Evaluates the increment of a loop, if it has one. -/
def increment : Nat → Option Expr → Action Interrupt Unit
  | 0, _ => Action.spent
  | _ + 1, none => pure ()
  | n + 1, some e => Action.asStmt do
    let _ ← expr n e
    pure ()

end

end Eval

end Sugod
