import Sugod.Tree

/-!
# Equality of values

Two values are equal if they are of the same kind and have the same contents. Functions are
compared by their whole declarations, lines included. Fractions compare as numbers, wherever they
stand, so a function whose body holds a NaN differs from itself.
-/

set_option autoImplicit false

namespace Sugod

/-- Equality of parameters. -/
def Param.equal (a b : Param) : Bool :=
  a.ty = b.ty && a.name.equal b.name

/-- Equality of lists of tokens. -/
def Token.equalAll : List Token → List Token → Bool
  | [], [] => true
  | a :: as, b :: bs => a.equal b && Token.equalAll as bs
  | _, _ => false

/-- Equality of lists of parameters. -/
def Param.equalAll : List Param → List Param → Bool
  | [], [] => true
  | a :: as, b :: bs => a.equal b && Param.equalAll as bs
  | _, _ => false

mutual

/-- Equality of values. -/
def Value.equal : Value → Value → Bool
  | .int a, .int b => a = b
  | .float a, .float b => a == b
  | .char a, .char b => a = b
  | .bool a, .bool b => a = b
  | .str a, .str b => a = b
  | .fn a, .fn b => FunDecl.equal a b
  | .builtin a, .builtin b => a = b
  | .nil, .nil => true
  | _, _ => false
termination_by structural a => a

/-- Equality of function declarations. -/
def FunDecl.equal : FunDecl → FunDecl → Bool
  | ⟨name, params, body, returnTy⟩, ⟨name', params', body', returnTy'⟩ =>
    name.equal name' && Param.equalAll params params' && stmtsEqual body body' &&
      returnTy = returnTy'
termination_by structural a => a

/-- Equality of expressions. -/
def Expr.equal : Expr → Expr → Bool
  | .literal v line, .literal v' line' => v.equal v' && line = line'
  | .var name, .var name' => name.equal name'
  | .assign name e, .assign name' e' => name.equal name' && e.equal e'
  | .unary op e, .unary op' e' => op.equal op' && e.equal e'
  | .binary l op r, .binary l' op' r' => l.equal l' && op.equal op' && r.equal r'
  | .logical l op r, .logical l' op' r' => l.equal l' && op.equal op' && r.equal r'
  | .grouping e, .grouping e' => e.equal e'
  | .call f paren args, .call f' paren' args' =>
    f.equal f' && paren.equal paren' && exprsEqual args args'
  | _, _ => false
termination_by structural a => a

/-- Equality of lists of expressions. -/
def exprsEqual : List Expr → List Expr → Bool
  | [], [] => true
  | e :: es, e' :: es' => e.equal e' && exprsEqual es es'
  | _, _ => false
termination_by structural a => a

/-- Equality of expressions that may be absent. -/
def exprEqual? : Option Expr → Option Expr → Bool
  | none, none => true
  | some e, some e' => e.equal e'
  | _, _ => false
termination_by structural a => a

/-- Equality of statements. -/
def Stmt.equal : Stmt → Stmt → Bool
  | .display e, .display e' => e.equal e'
  | .expr e, .expr e' => e.equal e'
  | .accept names, .accept names' => Token.equalAll names names'
  | .declare name ty init mutable, .declare name' ty' init' mutable' =>
    name.equal name' && ty = ty' && exprEqual? init init' && mutable = mutable'
  | .block body, .block body' => stmtsEqual body body'
  | .choose first others otherwise, .choose first' others' otherwise' =>
    first.equal first' && branchesEqual others others' && bodyEqual? otherwise otherwise'
  | .whileLoop cond body, .whileLoop cond' body' => cond.equal cond' && stmtsEqual body body'
  | .forLoop init cond increment body, .forLoop init' cond' increment' body' =>
    init.equal init' && cond.equal cond' && increment.equal increment' && stmtsEqual body body'
  | .ret keyword value, .ret keyword' value' => keyword.equal keyword' && exprEqual? value value'
  | .fn decl, .fn decl' => FunDecl.equal decl decl'
  | _, _ => false
termination_by structural a => a

/-- Equality of lists of statements. -/
def stmtsEqual : List Stmt → List Stmt → Bool
  | [], [] => true
  | s :: ss, s' :: ss' => s.equal s' && stmtsEqual ss ss'
  | _, _ => false
termination_by structural a => a

/-- Equality of bodies that may be absent. -/
def bodyEqual? : Option (List Stmt) → Option (List Stmt) → Bool
  | none, none => true
  | some b, some b' => stmtsEqual b b'
  | _, _ => false
termination_by structural a => a

/-- Equality of branches. -/
def Branch.equal : Branch → Branch → Bool
  | ⟨cond, body⟩, ⟨cond', body'⟩ => cond.equal cond' && stmtsEqual body body'
termination_by structural a => a

/-- Equality of lists of branches. -/
def branchesEqual : List Branch → List Branch → Bool
  | [], [] => true
  | b :: bs, b' :: bs' => b.equal b' && branchesEqual bs bs'
  | _, _ => false
termination_by structural a => a

end

end Sugod
