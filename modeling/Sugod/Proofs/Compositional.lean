import Sugod.Eval
import Sugod.Proofs.Change

/-!
# Properties that the rules of evaluation carry

Evaluation is put together from a few primitive actions by a few ways of combining them. A property
of actions that holds of the primitives and passes through the combinations therefore holds of every
expression, call and statement, with every number of steps. `Compositional` lists what has to be
shown of such a property, once and for all programs; `Compositional.holds` is the induction.

Three properties go together. `E` is about expressions and calls. `W` is about the parts of a
statement that declare nothing in the scope they stand in: conditions, blocks, branches and loops.
`S` is about statements, which may.
-/

set_option autoImplicit false

namespace Sugod

namespace Action

variable {α β : Type}

/-- Taking one action after another as part of a statement is taking each of them so. -/
theorem asStmt_bind (x : Action Fault α) (f : α → Action Fault β) :
    (x >>= f).asStmt = x.asStmt >>= fun a => (f a).asStmt := by
  funext s
  rw [bind_apply]
  unfold asStmt
  rw [bind_apply]
  cases x s <;> rfl

theorem bind_of_done {ε : Type} {x : Action ε α} {f : α → Action ε β} {s s' : State} {a : α}
    (h : x s = .done a s') : (x >>= f) s = f a s' := by
  rw [bind_apply, h]

theorem asStmt_of_done {x : Action Fault α} {s s' : State} {a : α} (h : x s = .done a s') :
    x.asStmt s = .done a s' := by
  unfold asStmt
  rw [h]

theorem asStmt_of_stop {x : Action Fault α} {s s' : State} {f : Fault} (h : x s = .stop f s') :
    x.asStmt s = .stop (.fault f) s' := by
  unfold asStmt
  rw [h]

theorem of_asStmt_eq_done {x : Action Fault α} {s s' : State} {a : α}
    (h : x.asStmt s = .done a s') : x s = .done a s' := by
  unfold asStmt at h
  cases hx : x s <;> rw [hx] at h <;> cases h
  rfl

theorem of_ofExcept_eq_done {line : Nat} {x : Except Cause α} {s s' : State} {a : α}
    (h : ofExcept line x s = .done a s') : x = .ok a ∧ s' = s := by
  unfold ofExcept at h
  cases x <;> cases h
  exact ⟨rfl, rfl⟩

end Action

namespace FunDecl

/-- Arguments that pass the check have the types of their parameters. -/
theorem ty_of_checkTypes {decl : FunDecl} {bindings : List (Param × Value)}
    (h : decl.checkTypes bindings = .ok ()) : ∀ b ∈ bindings, b.2.ty? = some b.1.ty := by
  induction bindings with
  | nil => simp
  | cons b rest ih =>
    intro c hc
    unfold checkTypes at h
    split at h
    · rename_i hb
      rcases List.mem_cons.mp hc with rfl | hrest
      · exact hb
      · exact ih h c hrest
    · cases h

/-- A function whose call passes all checks gets arguments of the types of its parameters. -/
theorem ty_of_check {decl : FunDecl} {args : List Value} {callDepth : Nat}
    (h : decl.check args callDepth = .ok ()) :
    ∀ b ∈ decl.params.zip args, b.2.ty? = some b.1.ty := by
  unfold check at h
  split at h
  · cases h
  · split at h
    · cases h
    · rename_i htypes
      exact ty_of_checkTypes htypes

end FunDecl

namespace Eval

/-- An initial value that is accepted has the type of its variable. -/
theorem ty_of_checkInit {ty : Ty} {v w : Value} (h : checkInit ty v = .ok w) :
    w.ty? = some ty := by
  unfold checkInit at h
  split at h
  · rename_i hv
    obtain rfl := Except.ok.inj h
    exact hv
  · cases h

/-- The properties `E`, `W` and `S` hold of the primitive actions and pass through all ways of
combining actions. Behind an action that is done, only its possible values have to be considered. -/
structure Compositional (E : (α : Type) → Action Fault α → Prop)
    (W S : (α : Type) → Action Interrupt α → Prop) : Prop where
  -- Expressions and calls.
  spent : ∀ {α : Type}, E α Action.spent
  ofExcept : ∀ {α : Type} (line : Nat) (x : Except Cause α), E α (Action.ofExcept line x)
  getVar : ∀ name, E Value (Action.getVar name)
  assign : ∀ name v, E Unit (Action.assign name v)
  checked : ∀ line f, E Unit (Action.checked line f)
  readLine : ∀ line, E String (Action.readLine line)
  display : ∀ line text, E Unit (Action.display line text)
  builtin : ∀ line (b : Builtin) args, E Value (Action.onConsole line (b.call args))
  bindExpr : ∀ {α β : Type} {x : Action Fault α} {f : α → Action Fault β},
    E α x → (∀ a s s', x s = .done a s' → E β (f a)) → E β (x >>= f)
  call : ∀ {x : Action Interrupt Unit} (decl : FunDecl),
    S Unit x → E Value (Action.settle (Action.called x) decl.result)
  -- Parts of a statement. A scope of its own turns what a statement may do into what a part may.
  asStmt : ∀ {α : Type} {x : Action Fault α}, E α x → W α x.asStmt
  returned : ∀ v line, W Unit (Action.stop (.returned v line))
  bindPart : ∀ {α β : Type} {x : Action Interrupt α} {f : α → Action Interrupt β},
    W α x → (∀ a s s', x s = .done a s' → W β (f a)) → W β (x >>= f)
  nested : ∀ {x : Action Interrupt Unit}, S Unit x → W Unit x.nested
  -- Statements. Nothing checks a slot that is declared, so the rules have to have done it before.
  part : ∀ {α : Type} {x : Action Interrupt α}, W α x → S α x
  bindStmt : ∀ {α β : Type} {x : Action Interrupt α} {f : α → Action Interrupt β},
    S α x → (∀ a s s', x s = .done a s' → S β (f a)) → S β (x >>= f)
  declare : ∀ name {slot : Slot}, slot.WellTyped → S Unit (Action.declare name slot).asStmt

/-- The properties `E`, `W` and `S` hold of evaluation with `n` steps. -/
structure Holds (E : (α : Type) → Action Fault α → Prop)
    (W S : (α : Type) → Action Interrupt α → Prop) (n : Nat) : Prop where
  expr : ∀ e, E Value (expr n e)
  exprs : ∀ es, E (List Value) (exprs n es)
  call : ∀ decl args line, E Value (call n decl args line)
  cond : ∀ e, E Bool (cond n e)
  stmt : ∀ s, S Unit (stmt n s)
  stmts : ∀ ss, S Unit (stmts n ss)
  branches : ∀ bs otherwise, W Unit (branches n bs otherwise)
  loop : ∀ c body step, W Unit (loop n c body step)
  increment : ∀ step, W Unit (increment n step)

namespace Compositional

variable {E : (α : Type) → Action Fault α → Prop} {W S : (α : Type) → Action Interrupt α → Prop}
  (rules : Compositional E W S)

include rules

theorem pureExpr {α : Type} (a : α) : E α (pure a) :=
  rules.ofExcept 0 (.ok a)

theorem stopExpr {α : Type} (f : Fault) : E α (Action.stop f) :=
  rules.ofExcept f.line (.error f.cause)

theorem spentPart {α : Type} : W α Action.spent :=
  rules.asStmt rules.spent

theorem purePart {α : Type} (a : α) : W α (pure a) :=
  rules.asStmt (rules.pureExpr a)

theorem assignAll (targets : List (Token × Value)) : E Unit (Action.assignAll targets) := by
  induction targets with
  | nil => exact rules.pureExpr ()
  | cons target rest ih =>
    exact rules.bindExpr (rules.assign target.1 target.2) fun _ _ _ _ => ih

theorem accept (names : List Token) : E Unit (Eval.accept names) := by
  unfold Eval.accept
  refine rules.bindExpr (rules.readLine _) fun text _ _ _ => ?_
  refine rules.bindExpr (rules.ofExcept _ _) fun values _ _ _ => ?_
  exact rules.assignAll _

/-- Parameters are declared one after another, each with an argument of its type. -/
theorem bindParams {bindings : List (Param × Value)}
    (h : ∀ b ∈ bindings, b.2.ty? = some b.1.ty) :
    S Unit (Eval.bindParams bindings).asStmt := by
  induction bindings with
  | nil => exact rules.part (rules.purePart ())
  | cons b rest ih =>
    have hb : b.2.ty? = some b.1.ty := h b (by simp)
    have hrest : ∀ c ∈ rest, c.2.ty? = some c.1.ty := fun c hc => h c (by simp [hc])
    rw [Eval.bindParams, Action.asStmt_bind]
    exact rules.bindStmt (rules.declare b.1.name (Slot.wellTyped_of_ty hb true))
      fun _ _ _ _ => ih hrest

/-! ## One step of each rule

Evaluation with `n + 1` steps hands on `n` steps to its parts, so each rule is one case by itself.
-/

variable {n : Nat} (ih : Holds E W S n)

include ih

theorem exprStep (e : Expr) : E Value (Eval.expr (n + 1) e) := by
  cases e with
  | literal v line => rw [Eval.expr]; exact rules.pureExpr v
  | var name => rw [Eval.expr]; exact rules.getVar name
  | grouping inner => rw [Eval.expr]; exact ih.expr inner
  | assign name value =>
    rw [Eval.expr]
    refine rules.bindExpr (ih.expr value) fun v _ _ _ => ?_
    exact rules.bindExpr (rules.assign name v) fun _ _ _ _ => rules.pureExpr v
  | unary op operand =>
    rw [Eval.expr]
    exact rules.bindExpr (ih.expr operand) fun v _ _ _ => rules.ofExcept _ _
  | binary left op right =>
    rw [Eval.expr]
    refine rules.bindExpr (ih.expr left) fun l _ _ _ => ?_
    exact rules.bindExpr (ih.expr right) fun r _ _ _ => rules.ofExcept _ _
  | logical left op right =>
    rw [Eval.expr]
    refine rules.bindExpr (ih.expr left) fun l _ _ _ => ?_
    cases l.truth? with
    | none => exact rules.stopExpr _
    | some b =>
      show E Value (if Operator.settles op b then pure l else Eval.expr n right)
      split
      · exact rules.pureExpr l
      · exact ih.expr right
  | call callee paren args =>
    rw [Eval.expr]
    refine rules.bindExpr (ih.expr callee) fun f _ _ _ => ?_
    refine rules.bindExpr (ih.exprs args) fun vs _ _ _ => ?_
    cases f with
    | fn decl => exact ih.call decl vs paren.line
    | builtin b => exact rules.builtin paren.line b vs
    | _ => exact rules.stopExpr _

theorem exprsStep (es : List Expr) : E (List Value) (Eval.exprs (n + 1) es) := by
  cases es with
  | nil => rw [Eval.exprs]; exact rules.pureExpr []
  | cons e es =>
    rw [Eval.exprs]
    refine rules.bindExpr (ih.expr e) fun v _ _ _ => ?_
    exact rules.bindExpr (ih.exprs es) fun vs _ _ _ => rules.pureExpr (v :: vs)

theorem callStep (decl : FunDecl) (args : List Value) (line : Nat) :
    E Value (Eval.call (n + 1) decl args line) := by
  rw [Eval.call]
  refine rules.bindExpr (rules.checked line _) fun _ s s' hdone => ?_
  -- The body is only reached behind a check that succeeded, so the arguments fit the parameters.
  have hcheck : decl.check args s.callDepth = .ok () := (Action.of_ofExcept_eq_done hdone).1
  refine rules.call decl ?_
  exact rules.bindStmt (rules.bindParams (FunDecl.ty_of_check hcheck))
    fun _ _ _ _ => ih.stmts decl.body

theorem condStep (e : Expr) : E Bool (Eval.cond (n + 1) e) := by
  rw [Eval.cond]
  exact rules.bindExpr (ih.expr e) fun v _ _ _ => rules.ofExcept _ _

theorem stmtStep (s : Stmt) : S Unit (Eval.stmt (n + 1) s) := by
  cases s with
  | display e =>
    rw [Eval.stmt]
    refine rules.part (rules.asStmt ?_)
    exact rules.bindExpr (ih.expr e) fun v _ _ _ => rules.display _ _
  | expr e =>
    rw [Eval.stmt]
    refine rules.part (rules.asStmt ?_)
    exact rules.bindExpr (ih.expr e) fun _ _ _ _ => rules.pureExpr ()
  | accept names => rw [Eval.stmt]; exact rules.part (rules.asStmt (rules.accept names))
  | declare name ty init mutable =>
    cases init with
    | none => rw [Eval.stmt]; exact rules.declare name (Slot.wellTyped_unassigned ty mutable)
    | some e =>
      rw [Eval.stmt, Action.asStmt_bind]
      refine rules.bindStmt (rules.part (rules.asStmt (ih.expr e))) fun v _ _ _ => ?_
      rw [Action.asStmt_bind]
      refine rules.bindStmt (rules.part (rules.asStmt (rules.ofExcept _ _))) fun w s s' hdone => ?_
      -- The declaration is only reached behind a check of the initial value.
      have hw : checkInit ty v = .ok w :=
        (Action.of_ofExcept_eq_done (Action.of_asStmt_eq_done hdone)).1
      exact rules.declare name (Slot.wellTyped_of_ty (ty_of_checkInit hw) mutable)
  | block body => rw [Eval.stmt]; exact rules.part (rules.nested (ih.stmts body))
  | choose first others otherwise => rw [Eval.stmt]; exact rules.part (ih.branches _ otherwise)
  | whileLoop c body => rw [Eval.stmt]; exact rules.part (ih.loop c body none)
  | forLoop init c step body =>
    rw [Eval.stmt]
    refine rules.part (rules.nested ?_)
    exact rules.bindStmt (ih.stmt init) fun _ _ _ _ => rules.part (ih.loop c body (some step))
  | ret keyword value =>
    cases value with
    | none => rw [Eval.stmt]; exact rules.part (rules.returned none keyword.line)
    | some e =>
      rw [Eval.stmt]
      refine rules.part (rules.bindPart (rules.asStmt (ih.expr e)) fun v _ _ _ => ?_)
      exact rules.returned (some v) keyword.line
  | fn decl => rw [Eval.stmt]; exact rules.declare decl.name (Slot.wellTyped_callable rfl)

theorem stmtsStep (ss : List Stmt) : S Unit (Eval.stmts (n + 1) ss) := by
  cases ss with
  | nil => rw [Eval.stmts]; exact rules.part (rules.purePart ())
  | cons s ss =>
    rw [Eval.stmts]
    exact rules.bindStmt (ih.stmt s) fun _ _ _ _ => ih.stmts ss

theorem branchesStep (bs : List Branch) (otherwise : Option (List Stmt)) :
    W Unit (Eval.branches (n + 1) bs otherwise) := by
  cases bs with
  | nil =>
    cases otherwise with
    | none => rw [Eval.branches]; exact rules.purePart ()
    | some body => rw [Eval.branches]; exact rules.nested (ih.stmts body)
  | cons b bs =>
    rw [Eval.branches]
    refine rules.bindPart (rules.asStmt (ih.cond b.cond)) fun holds _ _ _ => ?_
    cases holds with
    | true => exact rules.nested (ih.stmts b.body)
    | false => exact ih.branches bs otherwise

theorem loopStep (c : Expr) (body : List Stmt) (step : Option Expr) :
    W Unit (Eval.loop (n + 1) c body step) := by
  rw [Eval.loop]
  refine rules.bindPart (rules.asStmt (ih.cond c)) fun holds _ _ _ => ?_
  cases holds with
  | true =>
    refine rules.bindPart (rules.nested (ih.stmts body)) fun _ _ _ _ => ?_
    exact rules.bindPart (ih.increment step) fun _ _ _ _ => ih.loop c body step
  | false => exact rules.purePart ()

theorem incrementStep (step : Option Expr) : W Unit (Eval.increment (n + 1) step) := by
  cases step with
  | none => rw [Eval.increment]; exact rules.purePart ()
  | some e =>
    rw [Eval.increment]
    refine rules.asStmt ?_
    exact rules.bindExpr (ih.expr e) fun _ _ _ _ => rules.pureExpr ()

omit ih

/-- **A compositional property holds of all of evaluation**, with every number of steps. -/
theorem holds (n : Nat) : Holds E W S n := by
  induction n with
  | zero =>
    -- Without steps every rule is spent.
    have spentStmt : S Unit Action.spent := rules.part rules.spentPart
    constructor <;> intros
    case expr => rw [Eval.expr]; exact rules.spent
    case exprs => rw [Eval.exprs]; exact rules.spent
    case call => rw [Eval.call]; exact rules.spent
    case cond => rw [Eval.cond]; exact rules.spent
    case stmt => rw [Eval.stmt]; exact spentStmt
    case stmts => rw [Eval.stmts]; exact spentStmt
    case branches => rw [Eval.branches]; exact rules.spentPart
    case loop => rw [Eval.loop]; exact rules.spentPart
    case increment => rw [Eval.increment]; exact rules.spentPart
  | succ n ih =>
    exact ⟨rules.exprStep ih, rules.exprsStep ih, rules.callStep ih, rules.condStep ih,
      rules.stmtStep ih, rules.stmtsStep ih, rules.branchesStep ih, rules.loopStep ih,
      rules.incrementStep ih⟩

end Compositional

end Eval

end Sugod
