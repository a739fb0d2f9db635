import Sugod.Proofs.Effect

/-!
# The points of a run

A result tells how a run ended. This module is about the states in between, also those of a run that
never ends. `Starts` says which parts of a task a run comes to, and in which states: a right operand
starts where the left one ended, the body of a block in a scope of its own, the next round of a loop
behind the increment. `Passes` collects the states of a run: where a task starts and ends, the same
for all tasks that it comes to, and the states between two parameters of a call and between two
variables of an input line.

`Passes.advances` is what all these states have in common: they are reached by changes of the
variables and by entering scopes.
-/

set_option autoImplicit false

namespace Sugod

/-- The state with a scope entered under the current one. -/
def State.nested (s : State) : State :=
  { s with env := s.env.push s.env.current }

/-- The state with the scope of a call entered. -/
def State.called (s : State) : State :=
  { s with env := s.env.push globalScope, callDepth := s.callDepth + 1 }

namespace Eval

/-- What a run can be busy with. -/
inductive Task where
  | expr (e : Expr)
  | exprs (es : List Expr)
  | call (decl : FunDecl) (args : List Value) (line : Nat)
  | cond (e : Expr)
  | stmt (s : Stmt)
  | stmts (ss : List Stmt)
  | branches (bs : List Branch) (otherwise : Option (List Stmt))
  | loop (c : Expr) (body : List Stmt) (step : Option Expr)
  | increment (step : Option Expr)

/-- The state in which a task ends, given a number of steps. -/
def Task.after? (n : Nat) (s : State) : Task → Option State
  | expr e => (Eval.expr n e s).after?
  | exprs es => (Eval.exprs n es s).after?
  | call decl args line => (Eval.call n decl args line s).after?
  | cond e => (Eval.cond n e s).after?
  | stmt st => (Eval.stmt n st s).after?
  | stmts ss => (Eval.stmts n ss s).after?
  | branches bs otherwise => (Eval.branches n bs otherwise s).after?
  | loop c body step => (Eval.loop n c body step s).after?
  | increment step => (Eval.increment n step s).after?

/-- The first task, begun in the first state, comes to the second task in the second state. What is
done before that part has to be done, with whatever number of steps. -/
inductive Starts : Task → State → Task → State → Prop
  -- Operands are evaluated from left to right.
  | inner {inner s} : Starts (.expr (.grouping inner)) s (.expr inner) s
  | assigned {name value s} : Starts (.expr (.assign name value)) s (.expr value) s
  | operand {op operand s} : Starts (.expr (.unary op operand)) s (.expr operand) s
  | left {left op right s} : Starts (.expr (.binary left op right)) s (.expr left) s
  | right {n left op right l s s₁} (hl : Eval.expr n left s = .done l s₁) :
      Starts (.expr (.binary left op right)) s (.expr right) s₁
  | tested {left op right s} : Starts (.expr (.logical left op right)) s (.expr left) s
  | untested {n left op right l b s s₁} (hl : Eval.expr n left s = .done l s₁)
      (hb : l.truth? = some b) (hop : Operator.settles op b = false) :
      Starts (.expr (.logical left op right)) s (.expr right) s₁
  -- A call evaluates the function and the arguments, and then binds the parameters.
  | callee {callee paren args s} : Starts (.expr (.call callee paren args)) s (.expr callee) s
  | arguments {n callee paren args f s s₁} (hf : Eval.expr n callee s = .done f s₁) :
      Starts (.expr (.call callee paren args)) s (.exprs args) s₁
  | invoked {n m callee paren args decl vs s s₁ s₂}
      (hf : Eval.expr n callee s = .done (.fn decl) s₁)
      (hvs : Eval.exprs m args s₁ = .done vs s₂) :
      Starts (.expr (.call callee paren args)) s (.call decl vs paren.line) s₂
  | head {e es s} : Starts (.exprs (e :: es)) s (.expr e) s
  | tail {n e es v s s₁} (hv : Eval.expr n e s = .done v s₁) :
      Starts (.exprs (e :: es)) s (.exprs es) s₁
  | body {decl args line s s₁} (hcheck : decl.check args s.callDepth = .ok ())
      (hbind : bindParams (decl.params.zip args) s.called = .done () s₁) :
      Starts (.call decl args line) s (.stmts decl.body) s₁
  -- A statement may enter a scope for its parts.
  | condition {e s} : Starts (.cond e) s (.expr e) s
  | displayed {e s} : Starts (.stmt (.display e)) s (.expr e) s
  | evaluated {e s} : Starts (.stmt (.expr e)) s (.expr e) s
  | initial {name ty e mutable s} : Starts (.stmt (.declare name ty (some e) mutable)) s (.expr e) s
  | block {body s} : Starts (.stmt (.block body)) s (.stmts body) s.nested
  | choose {first others otherwise s} :
      Starts (.stmt (.choose first others otherwise)) s (.branches (first :: others) otherwise) s
  | whileLoop {c body s} : Starts (.stmt (.whileLoop c body)) s (.loop c body none) s
  | forInit {init c step body s} :
      Starts (.stmt (.forLoop init c step body)) s (.stmt init) s.nested
  | forLoop {n init c step body s s₁} (hinit : Eval.stmt n init s.nested = .done () s₁) :
      Starts (.stmt (.forLoop init c step body)) s (.loop c body (some step)) s₁
  | returned {keyword e s} : Starts (.stmt (.ret keyword (some e))) s (.expr e) s
  | first {st ss s} : Starts (.stmts (st :: ss)) s (.stmt st) s
  | next {n st ss s s₁} (hst : Eval.stmt n st s = .done () s₁) :
      Starts (.stmts (st :: ss)) s (.stmts ss) s₁
  -- Branches and rounds are tried one after another.
  | guard {b bs otherwise s} : Starts (.branches (b :: bs) otherwise) s (.cond b.cond) s
  | taken {n b bs otherwise s s₁} (hc : Eval.cond n b.cond s = .done true s₁) :
      Starts (.branches (b :: bs) otherwise) s (.stmts b.body) s₁.nested
  | skipped {n b bs otherwise s s₁} (hc : Eval.cond n b.cond s = .done false s₁) :
      Starts (.branches (b :: bs) otherwise) s (.branches bs otherwise) s₁
  | otherwise {body s} : Starts (.branches [] (some body)) s (.stmts body) s.nested
  | again {c body step s} : Starts (.loop c body step) s (.cond c) s
  | round {n c body step s s₁} (hc : Eval.cond n c s = .done true s₁) :
      Starts (.loop c body step) s (.stmts body) s₁.nested
  | step {n m c body step s s₁ s₂} (hc : Eval.cond n c s = .done true s₁)
      (hbody : Action.nested (Eval.stmts m body) s₁ = .done () s₂) :
      Starts (.loop c body step) s (.increment step) s₂
  | repeated {n m k c body step s s₁ s₂ s₃} (hc : Eval.cond n c s = .done true s₁)
      (hbody : Action.nested (Eval.stmts m body) s₁ = .done () s₂)
      (hstep : Eval.increment k step s₂ = .done () s₃) :
      Starts (.loop c body step) s (.loop c body step) s₃
  | increment {e s} : Starts (.increment (some e)) s (.expr e) s

/-- The task, begun in the first state, passes the second one. -/
inductive Passes : Task → State → State → Prop
  | start (task : Task) (s : State) : Passes task s s
  | finish {task : Task} {n : Nat} {s s' : State} (h : task.after? n s = some s') :
      Passes task s s'
  | part {task task' : Task} {s s₁ s' : State} (hstart : Starts task s task' s₁)
      (hpass : Passes task' s₁ s') : Passes task s s'
  | binding {decl : FunDecl} {args : List Value} {line : Nat} {bound rest : List (Param × Value)}
      {s s' : State} (hcheck : decl.check args s.callDepth = .ok ())
      (hsplit : decl.params.zip args = bound ++ rest)
      (h : (bindParams bound s.called).after? = some s') :
      Passes (.call decl args line) s s'
  | accepting {names : List Token} {line : Nat} {text : String} {values : List Value}
      {bound rest : List (Token × Value)} {s s₁ s' : State}
      (hread : Action.readLine line s = .done text s₁)
      (hvalues : entries names.length text = .ok values) (hsplit : names.zip values = bound ++ rest)
      (h : (Action.assignAll bound s₁).after? = some s') :
      Passes (.stmt (.accept names)) s s'

end Eval

/-! ## What the points have in common -/

/-- A change of the variables, or a scope is entered. -/
inductive Env.Advance : Env → Env → Prop
  | change {env env' : Env} (h : Change env env') : Advance env env'
  | enter (env : Env) (parent : ScopeId) : Advance env (env.push parent)

/-- Any number of changes and scopes entered. -/
abbrev Env.Advances : Env → Env → Prop :=
  Relation.ReflTransGen Env.Advance

theorem Env.Changes.advances {env env' : Env} (h : Env.Changes env env') :
    Env.Advances env env' :=
  Relation.ReflTransGen.mono (fun _ _ hc => Env.Advance.change hc) _ _ h

namespace Action.Affects

variable {ε α : Type} {x : Action ε α} {s s' : State}

/-- Where an action ends, the environment has advanced. -/
theorem advances (h : x.Affects Env.Change) (hs : (x s).after? = some s') :
    Env.Advances s.env s'.env :=
  Env.Changes.advances (h s s' hs).1

theorem advances_of_done (h : x.Affects Env.Change) {a : α} (hs : x s = .done a s') :
    Env.Advances s.env s'.env :=
  h.advances (by rw [hs]; rfl)

end Action.Affects

namespace Eval

theorem bindParams_affects {bindings : List (Param × Value)}
    (h : ∀ b ∈ bindings, b.2.ty? = some b.1.ty) : (bindParams bindings).Affects Env.Change := by
  intro s s' hs
  refine compositional_affects.bindParams h s s' ?_
  rw [Action.after?_asStmt]
  exact hs

theorem assignAll_affects (targets : List (Token × Value)) :
    (Action.assignAll targets).Affects Env.Write :=
  compositional_affects.assignAll targets

/-- What a task does to the variables where it ends. -/
theorem Task.changes {task : Task} {n : Nat} {s s' : State} (h : task.after? n s = some s') :
    Env.Changes s.env s'.env := by
  have hn := compositional_affects.holds n
  cases task with
  | expr e => exact ((hn.expr e).changes s s' h).1
  | exprs es => exact ((hn.exprs es).changes s s' h).1
  | call decl args line => exact ((hn.call decl args line).changes s s' h).1
  | cond e => exact ((hn.cond e).changes s s' h).1
  | stmt st => exact (hn.stmt st s s' h).1
  | stmts ss => exact (hn.stmts ss s s' h).1
  | branches bs otherwise => exact ((hn.branches bs otherwise).changes s s' h).1
  | loop c body step => exact ((hn.loop c body step).changes s s' h).1
  | increment step => exact ((hn.increment step).changes s s' h).1

/-- A part of a task starts where the environment has advanced. -/
theorem Starts.advances {task task' : Task} {s s' : State} (h : Starts task s task' s') :
    Env.Advances s.env s'.env := by
  have nested : ∀ s : State, Env.Advances s.env s.nested.env :=
    fun s => .single (.enter s.env s.env.current)
  have holds := compositional_affects.holds
  cases h with
  -- Parts that start at once, before anything has been done.
  | inner | assigned | operand | left | tested | callee | head => exact .refl
  | condition | displayed | evaluated | initial | choose | whileLoop | returned => exact .refl
  | first | guard | again | increment => exact .refl
  | right hl => exact (expr_affects _ _).changes.advances_of_done hl
  | untested hl => exact (expr_affects _ _).changes.advances_of_done hl
  | arguments hf => exact (expr_affects _ _).changes.advances_of_done hf
  | invoked hf hvs =>
    have hargs := ((holds _).exprs _).changes.advances_of_done hvs
    exact ((expr_affects _ _).changes.advances_of_done hf).trans hargs
  | tail hv => exact (expr_affects _ _).changes.advances_of_done hv
  | body hcheck hbind =>
    -- The parameters are declared in the scope of the call.
    have hparams := (bindParams_affects (FunDecl.ty_of_check hcheck)).advances_of_done hbind
    exact .head (.enter s.env globalScope) hparams
  | block | forInit | otherwise => exact nested s
  | forLoop hinit => exact (nested s).trans ((stmt_affects _ _).advances_of_done hinit)
  | next hst => exact (stmt_affects _ _).advances_of_done hst
  | taken hc => exact (((holds _).cond _).changes.advances_of_done hc).trans (nested _)
  | skipped hc => exact ((holds _).cond _).changes.advances_of_done hc
  | round hc => exact (((holds _).cond _).changes.advances_of_done hc).trans (nested _)
  | step hc hbody =>
    have hround := (stmts_affects _ _).nested.changes.advances_of_done hbody
    exact (((holds _).cond _).changes.advances_of_done hc).trans hround
  | repeated hc hbody hstep =>
    have hround := (stmts_affects _ _).nested.changes.advances_of_done hbody
    have hincrement := ((holds _).increment _).changes.advances_of_done hstep
    exact (((holds _).cond _).changes.advances_of_done hc).trans (hround.trans hincrement)

/-- **Every state that a run passes is reached by changes and by entering scopes.** -/
theorem Passes.advances {task : Task} {s s' : State} (h : Passes task s s') :
    Env.Advances s.env s'.env := by
  induction h with
  | start => exact .refl
  | finish h => exact Env.Changes.advances (Task.changes h)
  | part hstart _ ih => exact hstart.advances.trans ih
  | @binding decl args line bound rest s s' hcheck hsplit h =>
    -- The check was about all parameters, so it covers those that are bound so far.
    have hty : ∀ b ∈ bound, b.2.ty? = some b.1.ty := fun b hb =>
      FunDecl.ty_of_check hcheck b (by rw [hsplit]; exact List.mem_append_left rest hb)
    have hparams := (bindParams_affects hty).advances h
    exact .head (.enter s.env globalScope) hparams
  | @accepting names line text values bound rest s s₁ s' hread hvalues hsplit h =>
    have hline := (compositional_affects.readLine line).changes.advances_of_done hread
    exact hline.trans ((assignAll_affects bound).changes.advances h)

end Eval

end Sugod
