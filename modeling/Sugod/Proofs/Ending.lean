import Sugod.Proofs.Points

/-!
# Tasks end when their parts do

Evaluation is given a number of steps, and a program that never ends spends any number of them.
Here an action is taken for all numbers of steps at once: it *ends* in a state if it has one and the
same result from some number of steps on.

`Eval.Task.ends_of_parts` says that a task ends if every part that it comes to does. So `Starts`
leaves nothing out: a run that never ends can be followed from part to part for ever
(`Eval.Task.ends_of_acc`).
-/

set_option autoImplicit false

namespace Sugod

namespace Action

variable {ε α β : Type}

/-- With enough steps, the action has the result `r`. -/
def ComesTo (x : Nat → Action ε α) (s : State) (r : Result ε α) : Prop :=
  ∃ n, ∀ m, n ≤ m → x m s = r

/-- With enough steps, the action has a result. -/
def Ends (x : Nat → Action ε α) (s : State) : Prop :=
  ∃ r, r ≠ .spent ∧ ComesTo x s r

/-- The action has a result without taking any steps. -/
def Prompt (x : Action ε α) : Prop :=
  ∀ s, x s ≠ .spent

/-! ## Actions that take no steps -/

theorem prompt_pure (a : α) : (pure a : Action ε α).Prompt :=
  fun _ h => nomatch h

theorem prompt_stop (e : ε) : (stop e : Action ε α).Prompt :=
  fun _ h => nomatch h

theorem prompt_ofExcept (line : Nat) (x : Except Cause α) : (ofExcept line x).Prompt := by
  intro s
  cases x <;> simp [ofExcept]

theorem prompt_checked (line : Nat) (f : Nat → Except Cause Unit) : (checked line f).Prompt :=
  fun s => prompt_ofExcept line (f s.callDepth) s

theorem prompt_getVar (name : Token) : (getVar name).Prompt :=
  fun s => prompt_ofExcept name.line (s.env.get name.lexeme) s

theorem prompt_onConsole (line : Nat) (f : Console → Except Cause α × Console) :
    (onConsole line f).Prompt := by
  intro s
  unfold onConsole
  split <;> simp

theorem prompt_display (line : Nat) (text : String) : (display line text).Prompt :=
  fun s => prompt_onConsole line _ { s with displayed := true }

theorem prompt_onEnv (line : Nat) (f : Env → Except Cause Env) : (onEnv line f).Prompt := by
  intro s
  unfold onEnv
  split <;> simp

theorem Prompt.bind {x : Action ε α} {f : α → Action ε β} (hx : x.Prompt)
    (hf : ∀ a, (f a).Prompt) : (x >>= f).Prompt := by
  intro s
  rw [bind_apply]
  cases h : x s with
  | done a s₁ => exact hf a s₁
  | stop e s₁ => simp
  | spent => exact absurd h (hx s)

theorem Prompt.asStmt {x : Action Fault α} (hx : x.Prompt) : x.asStmt.Prompt := by
  intro s
  unfold Action.asStmt
  cases h : x s with
  | done a s₁ => simp
  | stop e s₁ => simp
  | spent => exact absurd h (hx s)

theorem prompt_assignAll (targets : List (Token × Value)) : (assignAll targets).Prompt := by
  induction targets with
  | nil => exact prompt_pure ()
  | cons target rest ih => exact (prompt_onEnv _ _).bind fun _ => ih

/-! ## Putting actions together -/

theorem Prompt.ends {x : Action ε α} (hx : x.Prompt) (s : State) : Ends (fun _ => x) s :=
  ⟨x s, hx s, 0, fun _ _ => rfl⟩

/-- One step more at the start makes no difference. -/
theorem Ends.succ {x : Nat → Action ε α} {s : State} (h : Ends (fun n => x (n + 1)) s) :
    Ends x s := by
  obtain ⟨r, hr, n, hn⟩ := h
  refine ⟨r, hr, n + 1, fun m hm => ?_⟩
  obtain ⟨k, rfl⟩ : ∃ k, m = k + 1 := ⟨m - 1, by omega⟩
  exact hn k (by omega)

/-- Two actions one after the other end if the first one does and, when it is done, the second
one. -/
theorem Ends.bind {x : Nat → Action ε α} {f : Nat → α → Action ε β} {s : State} (hx : Ends x s)
    (hf : ∀ n a s₁, x n s = .done a s₁ → Ends (fun n => f n a) s₁) :
    Ends (fun n => x n >>= f n) s := by
  obtain ⟨r, hr, n, hn⟩ := hx
  have hfirst := hn n (Nat.le_refl n)
  cases r with
  | done a s₁ =>
    obtain ⟨q, hq, k, hk⟩ := hf n a s₁ hfirst
    -- The larger number of steps is enough for both.
    refine ⟨q, hq, max n k, fun m hm => ?_⟩
    show (x m >>= f m) s = q
    rw [bind_apply, hn m (by omega)]
    exact hk m (by omega)
  | stop e s₁ =>
    refine ⟨.stop e s₁, by simp, n, fun m hm => ?_⟩
    show (x m >>= f m) s = .stop e s₁
    rw [bind_apply, hn m hm]
  | spent => exact absurd rfl hr

/-- An action whose results are made from those of another one ends with it. -/
theorem Ends.through {ε' : Type} {x : Nat → Action ε α} {y : Nat → Action ε' β} {s t : State}
    (hx : Ends x s) (g : Result ε α → Result ε' β) (hy : ∀ n, y n t = g (x n s))
    (hg : ∀ r, r ≠ .spent → g r ≠ .spent) : Ends y t := by
  obtain ⟨r, hr, n, hn⟩ := hx
  refine ⟨g r, hg r hr, n, fun m hm => ?_⟩
  rw [hy, hn m hm]

theorem Ends.asStmt {x : Nat → Action Fault α} {s : State} (hx : Ends x s) :
    Ends (fun n => (x n).asStmt) s := by
  refine hx.through (fun r => Action.asStmt (fun _ => r) s) (fun _ => rfl) fun r hr => ?_
  exact Prompt.asStmt (fun _ => hr) s

theorem Ends.nested {x : Nat → Action ε α} {s : State} (hx : Ends x s.nested) :
    Ends (fun n => (x n).nested) s := by
  refine hx.through (fun r => Action.nested (fun _ => r) s) (fun _ => rfl) fun r hr => ?_
  cases r <;> simp_all [Action.nested, inScope, Result.mapAfter]

theorem Ends.called {x : Nat → Action ε α} {s : State} (hx : Ends x s.called) :
    Ends (fun n => (x n).called) s := by
  refine hx.through (fun r => Action.called (fun _ => r) s) (fun _ => rfl) fun r hr => ?_
  cases r <;> simp_all [Action.called, inScope, Result.mapAfter]

theorem Ends.settle {ε' : Type} {x : Nat → Action ε α} {s : State} (hx : Ends x s)
    (f : Except ε α → Except ε' β) : Ends (fun n => (x n).settle f) s := by
  refine hx.through (fun r => Action.settle (fun _ => r) f s) (fun _ => rfl) fun r hr => ?_
  unfold Action.settle
  cases r with
  | done a s₁ => cases hf : f (.ok a) <;> simp [hf]
  | stop e s₁ => cases hf : f (.error e) <;> simp [hf]
  | spent => exact absurd rfl hr

end Action

namespace Eval

open Sugod.Action

theorem prompt_bindParams (bindings : List (Param × Value)) : (bindParams bindings).Prompt := by
  induction bindings with
  | nil => exact prompt_pure ()
  | cons binding rest ih => exact (prompt_onEnv _ _).bind fun _ => ih

theorem prompt_accept (names : List Token) : (accept names).Prompt :=
  (prompt_onConsole _ _).bind fun _ => (prompt_ofExcept _ _).bind fun _ => prompt_assignAll _

/-! ## Tasks -/

/-- With enough steps, the task ends. -/
def Task.Ends (s : State) : Task → Prop
  | expr e => Action.Ends (fun n => Eval.expr n e) s
  | exprs es => Action.Ends (fun n => Eval.exprs n es) s
  | call decl args line => Action.Ends (fun n => Eval.call n decl args line) s
  | cond e => Action.Ends (fun n => Eval.cond n e) s
  | stmt st => Action.Ends (fun n => Eval.stmt n st) s
  | stmts ss => Action.Ends (fun n => Eval.stmts n ss) s
  | branches bs otherwise => Action.Ends (fun n => Eval.branches n bs otherwise) s
  | loop c body step => Action.Ends (fun n => Eval.loop n c body step) s
  | increment step => Action.Ends (fun n => Eval.increment n step) s

/-- Every part that the task comes to ends. -/
def Task.PartsEnd (task : Task) (s : State) : Prop :=
  ∀ {part : Task} {s₁ : State}, Starts task s part s₁ → part.Ends s₁

variable {s : State}

theorem expr_ends {e : Expr} (h : (Task.expr e).PartsEnd s) : (Task.expr e).Ends s := by
  refine Ends.succ ?_
  cases e with
  | literal v line =>
    simp only [Eval.expr]
    exact (prompt_pure v).ends s
  | var name =>
    simp only [Eval.expr]
    exact (prompt_getVar name).ends s
  | grouping inner =>
    simp only [Eval.expr]
    exact h .inner
  | assign name value =>
    simp only [Eval.expr]
    refine Ends.bind (h .assigned) fun n v s₁ hv => ?_
    exact ((prompt_onEnv _ _).bind fun _ => prompt_pure v).ends s₁
  | unary op operand =>
    simp only [Eval.expr]
    exact Ends.bind (h .operand) fun n v s₁ hv => (prompt_ofExcept _ _).ends s₁
  | binary left op right =>
    simp only [Eval.expr]
    refine Ends.bind (h .left) fun n l s₁ hl => Ends.bind (h (.right hl)) fun m r s₂ hr => ?_
    exact (prompt_ofExcept _ _).ends s₂
  | logical left op right =>
    simp only [Eval.expr]
    refine Ends.bind (h .tested) fun n l s₁ hl => ?_
    cases hb : l.truth? with
    | none => exact (prompt_stop _).ends s₁
    | some b =>
      by_cases hop : Operator.settles op b = true
      · simp only [hop, if_true]
        exact (prompt_pure l).ends s₁
      · simp only [hop]
        exact h (.untested hl hb (Bool.eq_false_iff.mpr hop))
  | call callee paren args =>
    simp only [Eval.expr]
    refine Ends.bind (h .callee) fun n f s₁ hf => ?_
    refine Ends.bind (h (.arguments hf)) fun m vs s₂ hvs => ?_
    cases f with
    | fn decl => exact h (.invoked hf hvs)
    | builtin b => exact (prompt_onConsole _ _).ends s₂
    | _ => exact (prompt_stop _).ends s₂

theorem call_ends {decl : FunDecl} {args : List Value} {line : Nat}
    (h : (Task.call decl args line).PartsEnd s) : (Task.call decl args line).Ends s := by
  refine Ends.succ ?_
  simp only [Eval.call]
  refine Ends.bind ((prompt_checked _ _).ends s) fun _ _ s₁ hchecked => ?_
  obtain ⟨hcheck, rfl⟩ := of_ofExcept_eq_done hchecked
  refine Ends.settle (Ends.called ?_) decl.result
  refine Ends.bind ((prompt_bindParams _).asStmt.ends _) fun _ _ s₂ hbind => ?_
  exact h (.body hcheck (of_asStmt_eq_done hbind))

theorem stmt_ends {st : Stmt} (h : (Task.stmt st).PartsEnd s) : (Task.stmt st).Ends s := by
  refine Ends.succ ?_
  cases st with
  | display e =>
    simp only [Eval.stmt]
    exact (Ends.bind (h .displayed) fun _ v s₁ _ => (prompt_display _ _).ends s₁).asStmt
  | expr e =>
    simp only [Eval.stmt]
    exact (Ends.bind (h .evaluated) fun _ v s₁ _ => (prompt_pure ()).ends s₁).asStmt
  | accept names =>
    simp only [Eval.stmt]
    exact (prompt_accept names).asStmt.ends s
  | declare name ty init mutable =>
    cases init with
    | none =>
      simp only [Eval.stmt]
      exact (prompt_onEnv _ _).asStmt.ends s
    | some e =>
      simp only [Eval.stmt]
      refine (Ends.bind (h .initial) fun _ v s₁ _ => ?_).asStmt
      exact ((prompt_ofExcept _ _).bind fun _ => prompt_onEnv _ _).ends s₁
  | block body =>
    simp only [Eval.stmt]
    exact Ends.nested (h .block)
  | choose first others otherwise =>
    simp only [Eval.stmt]
    exact h .choose
  | whileLoop c body =>
    simp only [Eval.stmt]
    exact h .whileLoop
  | forLoop init c step body =>
    simp only [Eval.stmt]
    exact Ends.nested (Ends.bind (h .forInit) fun _ _ s₁ hinit => h (.forLoop hinit))
  | ret keyword value =>
    cases value with
    | none =>
      simp only [Eval.stmt]
      exact (prompt_stop _).ends s
    | some e =>
      simp only [Eval.stmt]
      exact Ends.bind (Ends.asStmt (h .returned)) fun _ v s₁ _ => (prompt_stop _).ends s₁
  | fn decl =>
    simp only [Eval.stmt]
    exact (prompt_onEnv _ _).asStmt.ends s

theorem branches_ends {bs : List Branch} {otherwise : Option (List Stmt)}
    (h : (Task.branches bs otherwise).PartsEnd s) : (Task.branches bs otherwise).Ends s := by
  refine Ends.succ ?_
  cases bs with
  | nil =>
    cases otherwise with
    | none =>
      simp only [Eval.branches]
      exact (prompt_pure ()).ends s
    | some body =>
      simp only [Eval.branches]
      exact Ends.nested (h .otherwise)
  | cons b bs =>
    simp only [Eval.branches]
    refine Ends.bind (Ends.asStmt (h .guard)) fun _ holds s₁ hc => ?_
    cases holds with
    | true => exact Ends.nested (h (.taken (of_asStmt_eq_done hc)))
    | false => exact h (.skipped (of_asStmt_eq_done hc))

theorem loop_ends {c : Expr} {body : List Stmt} {step : Option Expr}
    (h : (Task.loop c body step).PartsEnd s) : (Task.loop c body step).Ends s := by
  refine Ends.succ ?_
  simp only [Eval.loop]
  refine Ends.bind (Ends.asStmt (h .again)) fun _ holds s₁ hc => ?_
  replace hc := of_asStmt_eq_done hc
  cases holds with
  | true =>
    -- The next round is a part like any other one, so there is no induction here.
    refine Ends.bind (Ends.nested (h (.round hc))) fun _ _ s₂ hbody => ?_
    exact Ends.bind (h (.step hc hbody)) fun _ _ s₃ hstep => h (.repeated hc hbody hstep)
  | false => exact (prompt_pure ()).ends s₁

/-- **A task ends if every part that it comes to ends.** -/
theorem Task.ends_of_parts {task : Task} (h : task.PartsEnd s) : task.Ends s := by
  cases task with
  | expr e => exact expr_ends h
  | call decl args line => exact call_ends h
  | stmt st => exact stmt_ends h
  | branches bs otherwise => exact branches_ends h
  | loop c body step => exact loop_ends h
  | exprs es =>
    refine Ends.succ ?_
    cases es with
    | nil =>
      simp only [Eval.exprs]
      exact (prompt_pure []).ends s
    | cons e es =>
      simp only [Eval.exprs]
      refine Ends.bind (h .head) fun _ v s₁ hv => Ends.bind (h (.tail hv)) fun _ vs s₂ _ => ?_
      exact (prompt_pure (v :: vs)).ends s₂
  | cond e =>
    refine Ends.succ ?_
    simp only [Eval.cond]
    exact Ends.bind (h .condition) fun _ v s₁ _ => (prompt_ofExcept _ _).ends s₁
  | stmts ss =>
    refine Ends.succ ?_
    cases ss with
    | nil =>
      simp only [Eval.stmts]
      exact (prompt_pure ()).ends s
    | cons st ss =>
      simp only [Eval.stmts]
      exact Ends.bind (h .first) fun _ _ s₁ hst => h (.next hst)
  | increment step =>
    refine Ends.succ ?_
    cases step with
    | none =>
      simp only [Eval.increment]
      exact (prompt_pure ()).ends s
    | some e =>
      simp only [Eval.increment]
      exact (Ends.bind (h .increment) fun _ v s₁ _ => (prompt_pure ()).ends s₁).asStmt

/-- **A task ends if it cannot be followed from part to part for ever.** -/
theorem Task.ends_of_acc {task : Task}
    (h : Acc (fun later earlier : Task × State => Starts earlier.1 earlier.2 later.1 later.2)
      (task, s)) : task.Ends s := by
  generalize hrun : (task, s) = run at h
  induction h generalizing task s with
  | intro run _ ih =>
    subst hrun
    exact Task.ends_of_parts fun hstart => ih _ hstart rfl

end Eval

end Sugod
