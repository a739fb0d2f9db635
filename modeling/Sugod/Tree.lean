import Sugod.Token
import Sugod.Builtin

/-!
# Program trees

Expressions, statements and function declarations, and the values of the language. Values and
trees depend on each other: a literal holds a value, and the value of a user function is its whole
declaration. Trees keep the tokens that later reports need: a name with its line, an operator with
its text.

The types admit more trees than the grammar builds, such as a binary expression whose operator is
a keyword, and the rules of evaluation cover all of them.
-/

set_option autoImplicit false

namespace Sugod

/-- A parameter of a function. -/
structure Param where
  ty : Ty
  name : Token

mutual

/-- A value of the language. `nil` is the result of a function without a return type. -/
inductive Value where
  | int (n : Int64)
  | float (x : Float)
  | char (c : Char)
  | bool (b : Bool)
  | str (s : String)
  | fn (decl : FunDecl)
  | builtin (b : Builtin)
  | nil

/-- An expression. A literal carries its line, all others have a token that does; the token of a
call is its closing parenthesis. -/
inductive Expr where
  | literal (value : Value) (line : Nat)
  | var (name : Token)
  | assign (name : Token) (value : Expr)
  | unary (op : Token) (operand : Expr)
  | binary (left : Expr) (op : Token) (right : Expr)
  | logical (left : Expr) (op : Token) (right : Expr)
  | grouping (inner : Expr)
  | call (callee : Expr) (paren : Token) (args : List Expr)

/-- A statement. `ret` carries the keyword, whose line is reported. -/
inductive Stmt where
  | display (expr : Expr)
  | expr (expr : Expr)
  | accept (names : List Token)
  | declare (name : Token) (ty : Ty) (init : Option Expr) (mutable : Bool)
  | block (body : List Stmt)
  | choose (first : Branch) (others : List Branch) (otherwise : Option (List Stmt))
  | whileLoop (cond : Expr) (body : List Stmt)
  | forLoop (init : Stmt) (cond increment : Expr) (body : List Stmt)
  | ret (keyword : Token) (value : Option Expr)
  | fn (decl : FunDecl)

/-- A condition and the statements it guards. -/
structure Branch where
  cond : Expr
  body : List Stmt

/-- A function declaration. -/
structure FunDecl where
  name : Token
  params : List Param
  body : List Stmt
  returnTy : Option Ty

end

/-- A program: its functions and then the statements of its block. -/
abbrev Program : Type :=
  List Stmt

/-- The line an expression is reported at. -/
def Expr.line : Expr → Nat
  | .literal _ line => line
  | .var name => name.line
  | .assign name _ => name.line
  | .unary op _ => op.line
  | .binary _ op _ => op.line
  | .logical _ op _ => op.line
  | .grouping inner => inner.line
  | .call _ paren _ => paren.line

/-- Whether a statement returns from the function it stands in. -/
def Stmt.isRet : Stmt → Bool
  | .ret _ _ => true
  | _ => false

end Sugod
