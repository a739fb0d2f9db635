import Sugod.Eval

/-!
# More steps keep a finished result

Running is given a number of steps. This module shows that the number does not matter once it is
enough: what is done or has stopped with `n` steps has the same result with more
(`Eval.stmts_mono` and its companions).

`x.Grows y` says that the action `y` agrees with `x` wherever `x` does not run out of steps. It is
carried through every way in which actions are put together.
-/

set_option autoImplicit false

namespace Sugod

namespace Action

variable {ε α β : Type}

/-- The second action agrees with the first one wherever that does not run out of steps. -/
def Grows (x y : Action ε α) : Prop :=
  ∀ s, x s ≠ .spent → y s = x s

theorem Grows.refl (x : Action ε α) : x.Grows x :=
  fun _ _ => rfl

theorem Grows.trans {x y z : Action ε α} (hxy : x.Grows y) (hyz : y.Grows z) : x.Grows z := by
  intro s h
  have e := hxy s h
  rw [hyz s (by rw [e]; exact h), e]

theorem grows_spent (y : Action ε α) : (spent : Action ε α).Grows y :=
  fun _ h => absurd rfl h

/-- If one step more keeps finished results, any number of steps more does. -/
theorem grows_of_le {x : Nat → Action ε α} (h : ∀ n, (x n).Grows (x (n + 1))) {n m : Nat}
    (hnm : n ≤ m) : (x n).Grows (x m) := by
  induction hnm with
  | refl => exact .refl _
  | step _ ih => exact ih.trans (h _)

theorem Grows.bind {x y : Action ε α} {f g : α → Action ε β} (hx : x.Grows y)
    (hf : ∀ a, (f a).Grows (g a)) : (x >>= f).Grows (y >>= g) := by
  intro s h
  rw [bind_apply] at h
  rw [bind_apply, bind_apply]
  cases hr : x s with
  | done a s' =>
    rw [hr] at h
    rw [hx s (by simp [hr]), hr]
    exact hf a s' h
  | stop e s' => rw [hx s (by simp [hr]), hr]
  | spent => rw [hr] at h; exact absurd rfl h

theorem Grows.asStmt {x y : Action Fault α} (h : x.Grows y) : x.asStmt.Grows y.asStmt := by
  intro s hs
  have hx : x s ≠ .spent := fun e => hs (by simp [Action.asStmt, e])
  simp only [Action.asStmt, h s hx]

theorem Grows.inScope {x y : Action ε α} (h : x.Grows y) (parent : ScopeId) :
    (Action.inScope parent x).Grows (Action.inScope parent y) := by
  intro s hs
  have hx : x { s with env := s.env.push parent } ≠ .spent := fun e =>
    hs (by simp [Action.inScope, e, Result.mapAfter])
  simp only [Action.inScope, h _ hx]

theorem Grows.nested {x y : Action ε α} (h : x.Grows y) : x.nested.Grows y.nested :=
  fun s hs => h.inScope s.env.current s hs

theorem Grows.called {x y : Action ε α} (h : x.Grows y) : x.called.Grows y.called := by
  intro s hs
  have hx : Action.inScope globalScope x { s with callDepth := s.callDepth + 1 } ≠ .spent :=
    fun e => hs (by simp [Action.called, e, Result.mapAfter])
  simp only [Action.called, h.inScope globalScope _ hx]

theorem Grows.settle {ε' : Type} {x y : Action ε α} (h : x.Grows y)
    (f : Except ε α → Except ε' β) : (x.settle f).Grows (y.settle f) := by
  intro s hs
  have hx : x s ≠ .spent := fun e => hs (by simp [Action.settle, e])
  simp only [Action.settle, h s hx]

end Action

namespace Eval

open Sugod.Action

/-- One step more keeps every finished result. -/
structure StepGrows (n : Nat) : Prop where
  expr : ∀ e, (expr n e).Grows (expr (n + 1) e)
  exprs : ∀ es, (exprs n es).Grows (exprs (n + 1) es)
  call : ∀ decl args line, (call n decl args line).Grows (call (n + 1) decl args line)
  cond : ∀ e, (cond n e).Grows (cond (n + 1) e)
  stmt : ∀ s, (stmt n s).Grows (stmt (n + 1) s)
  stmts : ∀ ss, (stmts n ss).Grows (stmts (n + 1) ss)
  branches : ∀ bs o, (branches n bs o).Grows (branches (n + 1) bs o)
  loop : ∀ c body step, (loop n c body step).Grows (loop (n + 1) c body step)
  increment : ∀ step, (increment n step).Grows (increment (n + 1) step)

/-! ## One step of each rule

Of two runs of a rule, one with a step more, each hands on the rest of its steps. So the parts of
the rule differ by one step as well, and the ways in which the rule puts them together carry that.
-/

namespace StepGrows

variable {n : Nat} (ih : StepGrows n)

include ih

theorem exprStep (e : Expr) : (Eval.expr (n + 1) e).Grows (Eval.expr (n + 2) e) := by
  cases e with
  | literal v line => rw [Eval.expr, Eval.expr]; exact .refl _
  | var name => rw [Eval.expr, Eval.expr]; exact .refl _
  | grouping inner => rw [Eval.expr, Eval.expr]; exact ih.expr inner
  | assign name value =>
    rw [Eval.expr, Eval.expr]
    exact (ih.expr value).bind fun _ => .refl _
  | unary op operand =>
    rw [Eval.expr, Eval.expr]
    exact (ih.expr operand).bind fun _ => .refl _
  | binary left op right =>
    rw [Eval.expr, Eval.expr]
    exact (ih.expr left).bind fun _ => (ih.expr right).bind fun _ => .refl _
  | logical left op right =>
    rw [Eval.expr, Eval.expr]
    refine (ih.expr left).bind fun l => ?_
    cases l.truth? with
    | none => exact .refl _
    | some b =>
      -- The right operand is only evaluated where the left one does not settle the value.
      simp only
      split
      · exact .refl _
      · exact ih.expr right
  | call callee paren args =>
    rw [Eval.expr, Eval.expr]
    refine (ih.expr callee).bind fun f => (ih.exprs args).bind fun vs => ?_
    cases f with
    | fn decl => exact ih.call decl vs paren.line
    | _ => exact .refl _

theorem exprsStep (es : List Expr) : (Eval.exprs (n + 1) es).Grows (Eval.exprs (n + 2) es) := by
  cases es with
  | nil => rw [Eval.exprs, Eval.exprs]; exact .refl _
  | cons e es =>
    rw [Eval.exprs, Eval.exprs]
    exact (ih.expr e).bind fun _ => (ih.exprs es).bind fun _ => .refl _

theorem callStep (decl : FunDecl) (args : List Value) (line : Nat) :
    (Eval.call (n + 1) decl args line).Grows (Eval.call (n + 2) decl args line) := by
  rw [Eval.call, Eval.call]
  refine (Grows.refl _).bind fun _ => ?_
  have body := (Grows.refl (bindParams (decl.params.zip args)).asStmt).bind fun _ =>
    ih.stmts decl.body
  exact body.called.settle decl.result

theorem condStep (e : Expr) : (Eval.cond (n + 1) e).Grows (Eval.cond (n + 2) e) := by
  rw [Eval.cond, Eval.cond]
  exact (ih.expr e).bind fun _ => .refl _

theorem stmtStep (s : Stmt) : (Eval.stmt (n + 1) s).Grows (Eval.stmt (n + 2) s) := by
  cases s with
  | display e =>
    rw [Eval.stmt, Eval.stmt]
    exact ((ih.expr e).bind fun _ => .refl _).asStmt
  | expr e =>
    rw [Eval.stmt, Eval.stmt]
    exact ((ih.expr e).bind fun _ => .refl _).asStmt
  | accept names => rw [Eval.stmt, Eval.stmt]; exact .refl _
  | declare name ty init mutable =>
    cases init with
    | none => rw [Eval.stmt, Eval.stmt]; exact .refl _
    | some e =>
      rw [Eval.stmt, Eval.stmt]
      exact ((ih.expr e).bind fun _ => .refl _).asStmt
  | block body =>
    rw [Eval.stmt, Eval.stmt]
    exact (ih.stmts body).nested
  | choose first others otherwise =>
    rw [Eval.stmt, Eval.stmt]
    exact ih.branches _ otherwise
  | whileLoop c body =>
    rw [Eval.stmt, Eval.stmt]
    exact ih.loop c body none
  | forLoop init c step body =>
    rw [Eval.stmt, Eval.stmt]
    exact ((ih.stmt init).bind fun _ => ih.loop c body (some step)).nested
  | ret keyword value =>
    cases value with
    | none => rw [Eval.stmt, Eval.stmt]; exact .refl _
    | some e =>
      rw [Eval.stmt, Eval.stmt]
      exact (ih.expr e).asStmt.bind fun _ => .refl _
  | fn decl => rw [Eval.stmt, Eval.stmt]; exact .refl _

theorem stmtsStep (ss : List Stmt) : (Eval.stmts (n + 1) ss).Grows (Eval.stmts (n + 2) ss) := by
  cases ss with
  | nil => rw [Eval.stmts, Eval.stmts]; exact .refl _
  | cons s ss =>
    rw [Eval.stmts, Eval.stmts]
    exact (ih.stmt s).bind fun _ => ih.stmts ss

theorem branchesStep (bs : List Branch) (otherwise : Option (List Stmt)) :
    (Eval.branches (n + 1) bs otherwise).Grows (Eval.branches (n + 2) bs otherwise) := by
  cases bs with
  | nil =>
    cases otherwise with
    | none => rw [Eval.branches, Eval.branches]; exact .refl _
    | some body =>
      rw [Eval.branches, Eval.branches]
      exact (ih.stmts body).nested
  | cons b bs =>
    rw [Eval.branches, Eval.branches]
    refine (ih.cond b.cond).asStmt.bind fun holds => ?_
    cases holds with
    | true => exact (ih.stmts b.body).nested
    | false => exact ih.branches bs otherwise

theorem loopStep (c : Expr) (body : List Stmt) (step : Option Expr) :
    (Eval.loop (n + 1) c body step).Grows (Eval.loop (n + 2) c body step) := by
  rw [Eval.loop, Eval.loop]
  refine (ih.cond c).asStmt.bind fun holds => ?_
  cases holds with
  | true =>
    refine (ih.stmts body).nested.bind fun _ => ?_
    exact (ih.increment step).bind fun _ => ih.loop c body step
  | false => exact .refl _

theorem incrementStep (step : Option Expr) :
    (Eval.increment (n + 1) step).Grows (Eval.increment (n + 2) step) := by
  cases step with
  | none => rw [Eval.increment, Eval.increment]; exact .refl _
  | some e =>
    rw [Eval.increment, Eval.increment]
    exact ((ih.expr e).bind fun _ => .refl _).asStmt

end StepGrows

theorem stepGrows (n : Nat) : StepGrows n := by
  induction n with
  | zero =>
    -- Without steps every rule is spent.
    constructor <;> intros
    case expr => rw [Eval.expr]; exact grows_spent _
    case exprs => rw [Eval.exprs]; exact grows_spent _
    case call => rw [Eval.call]; exact grows_spent _
    case cond => rw [Eval.cond]; exact grows_spent _
    case stmt => rw [Eval.stmt]; exact grows_spent _
    case stmts => rw [Eval.stmts]; exact grows_spent _
    case branches => rw [Eval.branches]; exact grows_spent _
    case loop => rw [Eval.loop]; exact grows_spent _
    case increment => rw [Eval.increment]; exact grows_spent _
  | succ n ih =>
    exact ⟨ih.exprStep, ih.exprsStep, ih.callStep, ih.condStep, ih.stmtStep, ih.stmtsStep,
      ih.branchesStep, ih.loopStep, ih.incrementStep⟩

/-- More steps keep the finished result of a statement. -/
theorem stmt_mono {n m : Nat} (h : n ≤ m) (s : Stmt) : (stmt n s).Grows (stmt m s) :=
  grows_of_le (fun k => (stepGrows k).stmt s) h

/-- More steps keep the finished result of statements. -/
theorem stmts_mono {n m : Nat} (h : n ≤ m) (ss : List Stmt) : (stmts n ss).Grows (stmts m ss) :=
  grows_of_le (fun k => (stepGrows k).stmts ss) h

/-- More steps keep the finished result of a loop. -/
theorem loop_mono {n m : Nat} (h : n ≤ m) (c : Expr) (body : List Stmt) (step : Option Expr) :
    (loop n c body step).Grows (loop m c body step) :=
  grows_of_le (fun k => (stepGrows k).loop c body step) h

end Eval

end Sugod
