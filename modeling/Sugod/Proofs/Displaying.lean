import Sugod.Eval.Steps
import Sugod.Proofs.Ending
import Mathlib.Order.Basic
import Mathlib.Order.BooleanAlgebra.Defs

/-!
# What counts as displaying

A state says whether something has been displayed. Here this is tied to what a run does: `Displays`
says that a run comes to a display statement and has a value for it, by following the run from part
to part. **`Eval.Task.displayed_iff`**: where a task ends, something has been displayed exactly if
it had been before or if the task displays.

For one direction, a task that has no displaying part leaves the state's answer alone (one lemma for
each kind of task, then induction on the steps). For the other one, a part of a task that has ended
has ended itself (`Starts.ended`), and nothing takes back that something was displayed.
-/

set_option autoImplicit false

namespace Sugod

namespace Action

variable {ε α β : Type} {r : Bool → Bool → Prop} {s : State}

/-- From the state `s`, the action takes the answer whether something was displayed to one that is
related to it by `r`, whatever way it ends. -/
def Moves (r : Bool → Bool → Prop) (x : Action ε α) (s : State) : Prop :=
  ∀ s', (x s).after? = some s' → r s.displayed s'.displayed

/-! ## Actions that leave the answer alone -/

section Primitive

variable [Std.Refl r]

theorem moves_stop (e : ε) : (stop e : Action ε α).Moves r s := by
  intro s' h
  cases h
  exact Std.Refl.refl _

theorem moves_pure (a : α) : (pure a : Action ε α).Moves r s := by
  intro s' h
  cases h
  exact Std.Refl.refl _

theorem moves_ofExcept (line : Nat) (x : Except Cause α) : (ofExcept line x).Moves r s := by
  intro s' h
  cases x <;> cases h <;> exact Std.Refl.refl _

theorem moves_onConsole (line : Nat) (f : Console → Except Cause α × Console) :
    (onConsole line f).Moves r s := by
  intro s' h
  unfold onConsole at h
  split at h <;> cases h <;> exact Std.Refl.refl _

theorem moves_onEnv (line : Nat) (f : Env → Except Cause Env) : (onEnv line f).Moves r s := by
  intro s' h
  unfold onEnv at h
  split at h <;> cases h <;> exact Std.Refl.refl _

end Primitive

/-! ## Combinations -/

theorem moves_spent : (spent : Action ε α).Moves r s := by
  intro s' h
  cases h

theorem Moves.bind [IsTrans Bool r] {x : Action ε α} {f : α → Action ε β} (hx : x.Moves r s)
    (hf : ∀ a s₁, x s = .done a s₁ → (f a).Moves r s₁) : (x >>= f).Moves r s := by
  intro s' h
  rw [bind_apply] at h
  cases hr : x s with
  | done a s₁ =>
    rw [hr] at h
    have hfirst := hx s₁ (by rw [hr]; rfl)
    exact IsTrans.trans _ _ _ hfirst (hf a s₁ hr s' h)
  | stop e s₁ =>
    rw [hr] at h
    exact hx s' (by rw [hr]; exact h)
  | spent =>
    rw [hr] at h
    cases h

theorem Moves.asStmt {x : Action Fault α} (hx : x.Moves r s) : x.asStmt.Moves r s := by
  intro s' h
  rw [after?_asStmt] at h
  exact hx s' h

theorem Moves.settle {ε' : Type} {x : Action ε α} (hx : x.Moves r s)
    (f : Except ε α → Except ε' β) : (x.settle f).Moves r s := by
  intro s' h
  rw [after?_settle] at h
  exact hx s' h

/-- Where an action in a scope of its own ends, it has ended inside of the scope. -/
theorem of_after?_nested {x : Action ε α} {s' : State} (h : (x.nested s).after? = some s') :
    ∃ s₁, (x s.nested).after? = some s₁ ∧ s₁.displayed = s'.displayed := by
  unfold Action.nested inScope at h
  rw [Result.after?_mapAfter] at h
  obtain ⟨s₁, hs₁, rfl⟩ := Option.map_eq_some_iff.mp h
  exact ⟨s₁, hs₁, rfl⟩

theorem of_after?_called {x : Action ε α} {s' : State} (h : (x.called s).after? = some s') :
    ∃ s₁, (x s.called).after? = some s₁ ∧ s₁.displayed = s'.displayed := by
  unfold Action.called inScope at h
  rw [Result.after?_mapAfter, Result.after?_mapAfter] at h
  obtain ⟨s₂, hs₂, rfl⟩ := Option.map_eq_some_iff.mp h
  obtain ⟨s₁, hs₁, rfl⟩ := Option.map_eq_some_iff.mp hs₂
  exact ⟨s₁, hs₁, rfl⟩

theorem Moves.nested {x : Action ε α} (hx : x.Moves r s.nested) : x.nested.Moves r s := by
  intro s' h
  obtain ⟨s₁, hs₁, hsame⟩ := of_after?_nested h
  rw [← hsame]
  exact hx s₁ hs₁

theorem Moves.called {x : Action ε α} (hx : x.Moves r s.called) : x.called.Moves r s := by
  intro s' h
  obtain ⟨s₁, hs₁, hsame⟩ := of_after?_called h
  rw [← hsame]
  exact hx s₁ hs₁

/-- Where one action after another has ended, the first one has, and what it displayed stays
displayed. -/
theorem of_after?_bind {x : Action ε α} {f : α → Action ε β} {s' : State}
    (h : ((x >>= f) s).after? = some s') (hf : ∀ a s₁, (f a).Moves (· ≤ ·) s₁) :
    ∃ s₁, (x s).after? = some s₁ ∧ s₁.displayed ≤ s'.displayed := by
  rw [bind_apply] at h
  cases hr : x s with
  | done a s₁ =>
    rw [hr] at h
    exact ⟨s₁, rfl, hf a s₁ s' h⟩
  | stop e s₁ =>
    rw [hr] at h
    cases h
    exact ⟨s', rfl, le_rfl⟩
  | spent =>
    rw [hr] at h
    cases h

/-- With every number of steps with which an action ends it has the same result. -/
theorem eq_of_ended {x : Nat → Action ε α} (hx : ∀ k, (x k).Grows (x (k + 1))) {n m : Nat}
    (hn : x n s ≠ .spent) (hm : x m s ≠ .spent) : x n s = x m s :=
  calc x n s = x (max n m) s := (grows_of_le hx (Nat.le_max_left n m) s hn).symm
    _ = x m s := grows_of_le hx (Nat.le_max_right n m) s hm

/-- An action that is done with some number of steps is done with every number with which it goes on
to an end. -/
theorem bind_of_done_of_ended {x : Nat → Action ε α} (hx : ∀ k, (x k).Grows (x (k + 1))) {n m : Nat}
    {f : α → Action ε β} {a : α} {s₁ : State} (hdone : x m s = .done a s₁)
    (h : (x n >>= f) s ≠ .spent) : (x n >>= f) s = f a s₁ := by
  have hn : x n s ≠ .spent := by
    intro hspent
    rw [bind_apply, hspent] at h
    exact h rfl
  have hm : x m s ≠ .spent := by simp [hdone]
  exact bind_of_done ((eq_of_ended hx hn hm).trans hdone)

theorem after?_of_bind {x : Nat → Action ε α} (hx : ∀ k, (x k).Grows (x (k + 1))) {n m : Nat}
    {f : α → Action ε β} {a : α} {s₁ s' : State} (hdone : x m s = .done a s₁)
    (h : ((x n >>= f) s).after? = some s') : (f a s₁).after? = some s' := by
  rwa [bind_of_done_of_ended hx hdone (by intro hspent; simp [hspent] at h)] at h

/-- Behind a display, something has been displayed. -/
theorem displayed_of_display {line : Nat} {text : String} {s' : State}
    (h : (display line text s).after? = some s') : s'.displayed = true :=
  (moves_onConsole line _ (r := Eq) s' h).symm

end Action

namespace Eval

open Sugod.Action

/-- A run of the task comes to a display statement and has a value for it. -/
inductive Displays : Task → State → Prop
  | here {n : Nat} {e : Expr} {v : Value} {s s' : State} (h : Eval.expr n e s = .done v s') :
      Displays (.stmt (.display e)) s
  | part {task part : Task} {s s₁ : State} (hstart : Starts task s part s₁)
      (h : Displays part s₁) : Displays task s

/-! ## A task without a displaying part -/

/-- Where the task ends with `n` steps, something has been displayed exactly if it had been. -/
def Task.Quiet (n : Nat) (s : State) (task : Task) : Prop :=
  ∀ s', task.after? n s = some s' → s.displayed = s'.displayed

/-- Every part that the task comes to is quiet. -/
def Task.PartsQuiet (n : Nat) (task : Task) (s : State) : Prop :=
  ∀ {part : Task} {s₁ : State}, Starts task s part s₁ → part.Quiet n s₁

variable {n : Nat} {s : State}

theorem moves_bindParams {r : Bool → Bool → Prop} [Std.Refl r] [IsTrans Bool r]
    (bindings : List (Param × Value)) (s : State) : (bindParams bindings).Moves r s := by
  induction bindings generalizing s with
  | nil => exact moves_pure ()
  | cons binding rest ih => exact (moves_onEnv _ _).bind fun _ s₁ _ => ih s₁

theorem moves_assignAll {r : Bool → Bool → Prop} [Std.Refl r] [IsTrans Bool r]
    (targets : List (Token × Value)) (s : State) : (assignAll targets).Moves r s := by
  induction targets generalizing s with
  | nil => exact moves_pure ()
  | cons target rest ih => exact (moves_onEnv _ _).bind fun _ s₁ _ => ih s₁

theorem moves_accept {r : Bool → Bool → Prop} [Std.Refl r] [IsTrans Bool r] (names : List Token)
    (s : State) : (accept names).Moves r s :=
  (moves_onConsole _ _).bind fun _ _ _ => (moves_ofExcept _ _).bind fun _ s₂ _ =>
    moves_assignAll _ s₂

theorem expr_quiet {e : Expr} (h : (Task.expr e).PartsQuiet n s) :
    (Task.expr e).Quiet (n + 1) s := by
  show (Eval.expr (n + 1) e).Moves Eq s
  cases e with
  | literal v line => rw [Eval.expr]; exact moves_pure v
  | var name => rw [Eval.expr]; exact fun s' hs' => moves_ofExcept name.line _ s' hs'
  | grouping inner => rw [Eval.expr]; exact h .inner
  | assign name value =>
    rw [Eval.expr]
    exact Moves.bind (h .assigned) fun v _ _ => (moves_onEnv _ _).bind fun _ _ _ => moves_pure v
  | unary op operand =>
    rw [Eval.expr]
    exact Moves.bind (h .operand) fun _ _ _ => moves_ofExcept _ _
  | binary left op right =>
    rw [Eval.expr]
    exact Moves.bind (h .left) fun l _ hl => Moves.bind (h (.right hl)) fun _ _ _ =>
      moves_ofExcept _ _
  | logical left op right =>
    rw [Eval.expr]
    refine Moves.bind (h .tested) fun l s₁ hl => ?_
    cases hb : l.truth? with
    | none => exact moves_stop _
    | some b =>
      show (if Operator.settles op b then pure l else Eval.expr n right).Moves Eq s₁
      split
      · exact moves_pure l
      · rename_i hop
        exact h (.untested hl hb (Bool.eq_false_iff.mpr hop))
  | call callee paren args =>
    rw [Eval.expr]
    refine Moves.bind (h .callee) fun f s₁ hf => ?_
    refine Moves.bind (h (.arguments hf)) fun vs s₂ hvs => ?_
    cases f with
    | fn decl => exact h (.invoked hf hvs)
    | builtin b => exact moves_onConsole _ _
    | _ => exact moves_stop _

theorem call_quiet {decl : FunDecl} {args : List Value} {line : Nat}
    (h : (Task.call decl args line).PartsQuiet n s) :
    (Task.call decl args line).Quiet (n + 1) s := by
  show (Eval.call (n + 1) decl args line).Moves Eq s
  rw [Eval.call]
  refine Moves.bind (fun s' hs' => moves_ofExcept line _ s' hs') fun _ s₁ hchecked => ?_
  obtain ⟨hcheck, rfl⟩ := of_ofExcept_eq_done hchecked
  refine Moves.settle (Moves.called ?_) decl.result
  exact Moves.bind (moves_bindParams _ _).asStmt fun _ _ hbind =>
    h (.body hcheck (of_asStmt_eq_done hbind))

theorem stmt_quiet {st : Stmt} (h : (Task.stmt st).PartsQuiet n s)
    (hnot : ¬ Displays (.stmt st) s) : (Task.stmt st).Quiet (n + 1) s := by
  show (Eval.stmt (n + 1) st).Moves Eq s
  cases st with
  | display e =>
    -- The value is never there, so the display itself is not reached.
    rw [Eval.stmt]
    exact (Moves.bind (h .displayed) fun v s₁ hv => absurd (.here hv) hnot).asStmt
  | expr e =>
    rw [Eval.stmt]
    exact (Moves.bind (h .evaluated) fun _ _ _ => moves_pure ()).asStmt
  | accept names => rw [Eval.stmt]; exact (moves_accept names s).asStmt
  | declare name ty init mutable =>
    cases init with
    | none => rw [Eval.stmt]; exact (moves_onEnv _ _).asStmt
    | some e =>
      rw [Eval.stmt]
      exact (Moves.bind (h .initial) fun _ _ _ => (moves_ofExcept _ _).bind fun _ _ _ =>
        moves_onEnv _ _).asStmt
  | block body => rw [Eval.stmt]; exact Moves.nested (h .block)
  | choose first others otherwise => rw [Eval.stmt]; exact h .choose
  | whileLoop c body => rw [Eval.stmt]; exact h .whileLoop
  | forLoop init c step body =>
    rw [Eval.stmt]
    exact Moves.nested (Moves.bind (h .forInit) fun _ _ hinit => h (.forLoop hinit))
  | ret keyword value =>
    cases value with
    | none => rw [Eval.stmt]; exact moves_stop _
    | some e =>
      rw [Eval.stmt]
      exact Moves.bind (Moves.asStmt (h .returned)) fun _ _ _ => moves_stop _
  | fn decl => rw [Eval.stmt]; exact (moves_onEnv _ _).asStmt

theorem branches_quiet {bs : List Branch} {otherwise : Option (List Stmt)}
    (h : (Task.branches bs otherwise).PartsQuiet n s) :
    (Task.branches bs otherwise).Quiet (n + 1) s := by
  show (Eval.branches (n + 1) bs otherwise).Moves Eq s
  cases bs with
  | nil =>
    cases otherwise with
    | none => rw [Eval.branches]; exact moves_pure ()
    | some body => rw [Eval.branches]; exact Moves.nested (h .otherwise)
  | cons b bs =>
    rw [Eval.branches]
    refine Moves.bind (Moves.asStmt (h .guard)) fun holds s₁ hc => ?_
    cases holds with
    | true => exact Moves.nested (h (.taken (of_asStmt_eq_done hc)))
    | false => exact h (.skipped (of_asStmt_eq_done hc))

theorem loop_quiet {c : Expr} {body : List Stmt} {step : Option Expr}
    (h : (Task.loop c body step).PartsQuiet n s) : (Task.loop c body step).Quiet (n + 1) s := by
  show (Eval.loop (n + 1) c body step).Moves Eq s
  rw [Eval.loop]
  refine Moves.bind (Moves.asStmt (h .again)) fun holds s₁ hc => ?_
  replace hc := of_asStmt_eq_done hc
  cases holds with
  | true =>
    exact Moves.bind (Moves.nested (h (.round hc))) fun _ _ hbody =>
      Moves.bind (h (.step hc hbody)) fun _ _ hstep => h (.repeated hc hbody hstep)
  | false => exact moves_pure ()

/-- One step: a task is quiet if its parts are and it displays nothing itself. -/
theorem Task.quiet_of_parts {task : Task} (h : task.PartsQuiet n s) (hnot : ¬ Displays task s) :
    task.Quiet (n + 1) s := by
  cases task with
  | expr e => exact expr_quiet h
  | call decl args line => exact call_quiet h
  | stmt st => exact stmt_quiet h hnot
  | branches bs otherwise => exact branches_quiet h
  | loop c body step => exact loop_quiet h
  | exprs es =>
    show (Eval.exprs (n + 1) es).Moves Eq s
    cases es with
    | nil => rw [Eval.exprs]; exact moves_pure []
    | cons e es =>
      rw [Eval.exprs]
      exact Moves.bind (h .head) fun _ _ hv => Moves.bind (h (.tail hv)) fun _ _ _ => moves_pure _
  | cond e =>
    show (Eval.cond (n + 1) e).Moves Eq s
    rw [Eval.cond]
    exact Moves.bind (h .condition) fun _ _ _ => moves_ofExcept _ _
  | stmts ss =>
    show (Eval.stmts (n + 1) ss).Moves Eq s
    cases ss with
    | nil => rw [Eval.stmts]; exact moves_pure ()
    | cons st ss =>
      rw [Eval.stmts]
      exact Moves.bind (h .first) fun _ _ hst => h (.next hst)
  | increment step =>
    show (Eval.increment (n + 1) step).Moves Eq s
    cases step with
    | none => rw [Eval.increment]; exact moves_pure ()
    | some e =>
      rw [Eval.increment]
      exact (Moves.bind (h .increment) fun _ _ _ => moves_pure ()).asStmt

theorem Task.after?_zero (task : Task) (s : State) : task.after? 0 s = none := by
  cases task <;> simp [Task.after?, Eval.expr, Eval.exprs, Eval.call, Eval.cond, Eval.stmt,
    Eval.stmts, Eval.branches, Eval.loop, Eval.increment, Action.spent]

/-- A task that does not display is quiet. -/
theorem Task.quiet (n : Nat) {task : Task} {s : State} (h : ¬ Displays task s) :
    task.Quiet n s := by
  induction n generalizing task s with
  | zero =>
    intro s' hs'
    rw [Task.after?_zero] at hs'
    cases hs'
  | succ n ih =>
    exact Task.quiet_of_parts (fun hstart => ih fun hpart => h (.part hstart hpart)) h

/-! ## A part that displays -/

/-- Nothing takes back that something was displayed. -/
theorem compositional_moves :
    Compositional (fun _ x => ∀ s, x.Moves (· ≤ ·) s) (fun _ x => ∀ s, x.Moves (· ≤ ·) s)
      (fun _ x => ∀ s, x.Moves (· ≤ ·) s) where
  spent _ := moves_spent
  ofExcept line x _ := moves_ofExcept line x
  getVar name s := fun s' hs' => moves_ofExcept name.line _ s' hs'
  assign name v _ := moves_onEnv _ _
  checked line f s := fun s' hs' => moves_ofExcept line _ s' hs'
  readLine line _ := moves_onConsole line _
  display line text s := fun s' hs' => by
    rw [displayed_of_display hs']
    exact Bool.le_true _
  builtin line b args _ := moves_onConsole line _
  bindExpr hx hf s := (hx s).bind fun a s₁ ha => hf a s s₁ ha s₁
  call decl hx s := (hx s.called).called.settle decl.result
  asStmt hx s := (hx s).asStmt
  returned v line _ := moves_stop _
  bindPart hx hf s := (hx s).bind fun a s₁ ha => hf a s s₁ ha s₁
  nested hx s := (hx s.nested).nested
  part hx := hx
  bindStmt hx hf s := (hx s).bind fun a s₁ ha => hf a s s₁ ha s₁
  declare name _ _ _ := (moves_onEnv _ _).asStmt

theorem after?_of_expr {e : Expr} {m : Nat} {v : Value} {s₁ s' : State} {α : Type}
    {f : Value → Action Fault α} (hv : Eval.expr m e s = .done v s₁)
    (h : ((Eval.expr n e >>= f) s).after? = some s') : (f v s₁).after? = some s' :=
  after?_of_bind (x := fun k => Eval.expr k e) (fun k => (stepGrows k).expr e) hv h

theorem after?_of_cond {e : Expr} {m : Nat} {b : Bool} {s₁ s' : State}
    {f : Bool → Action Interrupt Unit} (hb : Eval.cond m e s = .done b s₁)
    (h : (((Eval.cond n e).asStmt >>= f) s).after? = some s') : (f b s₁).after? = some s' :=
  after?_of_bind (x := fun k => (Eval.cond k e).asStmt) (fun k => ((stepGrows k).cond e).asStmt)
    (asStmt_of_done hb) h

theorem after?_of_stmt {st : Stmt} {m : Nat} {s₁ s' : State} {f : Unit → Action Interrupt Unit}
    (hst : Eval.stmt m st s = .done () s₁)
    (h : ((Eval.stmt n st >>= f) s).after? = some s') : (f () s₁).after? = some s' :=
  after?_of_bind (x := fun k => Eval.stmt k st) (fun k => (stepGrows k).stmt st) hst h

/-- A part of an expression that has ended has ended itself. -/
theorem Starts.ended_expr {e : Expr} {part : Task} {s₁ s' : State}
    (hstart : Starts (.expr e) s part s₁) (h : (Eval.expr (n + 1) e s).after? = some s') :
    ∃ m s₂, part.after? m s₁ = some s₂ ∧ s₂.displayed ≤ s'.displayed := by
  have moves := compositional_moves.holds n
  cases hstart with
  | inner =>
    rw [Eval.expr] at h
    exact ⟨n, s', h, le_rfl⟩
  | assigned =>
    rw [Eval.expr] at h
    exact ⟨n, of_after?_bind h fun v _ => (moves_onEnv _ _).bind fun _ _ _ => moves_pure v⟩
  | operand =>
    rw [Eval.expr] at h
    exact ⟨n, of_after?_bind h fun _ _ => moves_ofExcept _ _⟩
  | left =>
    rw [Eval.expr] at h
    exact ⟨n, of_after?_bind h fun _ s₁ => (moves.expr _ s₁).bind fun _ _ _ => moves_ofExcept _ _⟩
  | right hl =>
    rw [Eval.expr] at h
    exact ⟨n, of_after?_bind (after?_of_expr hl h) fun _ _ => moves_ofExcept _ _⟩
  | tested =>
    rw [Eval.expr] at h
    refine ⟨n, of_after?_bind h fun l s₁ => ?_⟩
    split
    · exact moves_stop _
    · split
      · exact moves_pure l
      · exact moves.expr _ s₁
  | untested hl hb hop =>
    rw [Eval.expr] at h
    have hright := after?_of_expr hl h
    simp only [hb, hop] at hright
    exact ⟨n, s', hright, le_rfl⟩
  | callee =>
    rw [Eval.expr] at h
    refine ⟨n, of_after?_bind h fun f s₁ => (moves.exprs _ s₁).bind fun vs s₂ _ => ?_⟩
    cases f with
    | fn decl => exact moves.call decl vs _ s₂
    | builtin b => exact moves_onConsole _ _
    | _ => exact moves_stop _
  | @arguments _ _ _ _ f _ _ hf =>
    rw [Eval.expr] at h
    refine ⟨n, of_after?_bind (after?_of_expr hf h) fun vs s₂ => ?_⟩
    cases f with
    | fn decl => exact moves.call decl vs _ s₂
    | builtin b => exact moves_onConsole _ _
    | _ => exact moves_stop _
  | @invoked _ _ _ _ args _ _ _ _ _ hf hvs =>
    rw [Eval.expr] at h
    have hcall := after?_of_bind (x := fun k => Eval.exprs k args)
      (fun k => (stepGrows k).exprs args) hvs (after?_of_expr hf h)
    exact ⟨n, s', hcall, le_rfl⟩

/-- A part of a statement that has ended has ended itself. -/
theorem Starts.ended_stmt {st : Stmt} {part : Task} {s₁ s' : State}
    (hstart : Starts (.stmt st) s part s₁) (h : (Eval.stmt (n + 1) st s).after? = some s') :
    ∃ m s₂, part.after? m s₁ = some s₂ ∧ s₂.displayed ≤ s'.displayed := by
  have moves := compositional_moves.holds n
  cases hstart with
  | displayed =>
    rw [Eval.stmt, after?_asStmt] at h
    exact ⟨n, of_after?_bind h fun _ s₁ => compositional_moves.display _ _ s₁⟩
  | evaluated =>
    rw [Eval.stmt, after?_asStmt] at h
    exact ⟨n, of_after?_bind h fun _ _ => moves_pure ()⟩
  | initial =>
    rw [Eval.stmt, after?_asStmt] at h
    exact ⟨n, of_after?_bind h fun _ _ => (moves_ofExcept _ _).bind fun _ _ _ => moves_onEnv _ _⟩
  | block =>
    rw [Eval.stmt] at h
    obtain ⟨s₂, hs₂, hsame⟩ := of_after?_nested h
    exact ⟨n, s₂, hs₂, le_of_eq hsame⟩
  | choose =>
    rw [Eval.stmt] at h
    exact ⟨n, s', h, le_rfl⟩
  | whileLoop =>
    rw [Eval.stmt] at h
    exact ⟨n, s', h, le_rfl⟩
  | forInit =>
    rw [Eval.stmt] at h
    obtain ⟨s₂, hs₂, hsame⟩ := of_after?_nested h
    rw [← hsame]
    exact ⟨n, of_after?_bind hs₂ fun _ s₃ => moves.loop _ _ _ s₃⟩
  | forLoop hinit =>
    rw [Eval.stmt] at h
    obtain ⟨s₂, hs₂, hsame⟩ := of_after?_nested h
    exact ⟨n, s₂, after?_of_stmt hinit hs₂, le_of_eq hsame⟩
  | returned =>
    rw [Eval.stmt] at h
    obtain ⟨s₂, hs₂, hle⟩ := of_after?_bind h fun _ _ => moves_stop _
    rw [after?_asStmt] at hs₂
    exact ⟨n, s₂, hs₂, hle⟩

/-- A part of a loop that has ended has ended itself. -/
theorem Starts.ended_loop {c : Expr} {body : List Stmt} {step : Option Expr} {part : Task}
    {s₁ s' : State} (hstart : Starts (.loop c body step) s part s₁)
    (h : (Eval.loop (n + 1) c body step s).after? = some s') :
    ∃ m s₂, part.after? m s₁ = some s₂ ∧ s₂.displayed ≤ s'.displayed := by
  have moves := compositional_moves.holds n
  have hround : ∀ s, (Eval.stmts n body).nested.Moves (· ≤ ·) s := fun s => (moves.stmts _ _).nested
  rw [Eval.loop] at h
  -- What is left of the run behind a round of the body.
  have behind : ∀ {m k : Nat} {s₁ s₂ : State}, Eval.cond m c s = .done true s₁ →
      Action.nested (Eval.stmts k body) s₁ = .done () s₂ →
      ((Eval.increment n step >>= fun _ => Eval.loop n c body step) s₂).after? = some s' :=
    fun hc hbody => after?_of_bind (x := fun k => (Eval.stmts k body).nested)
      (fun k => ((stepGrows k).stmts body).nested) hbody (after?_of_cond hc h)
  cases hstart with
  | again =>
    obtain ⟨s₂, hs₂, hle⟩ := of_after?_bind h fun holds s₁ => by
      cases holds with
      | true =>
        exact (hround s₁).bind fun _ s₂ _ => (moves.increment step s₂).bind fun _ s₃ _ =>
          moves.loop c body step s₃
      | false => exact moves_pure ()
    rw [after?_asStmt] at hs₂
    exact ⟨n, s₂, hs₂, hle⟩
  | round hc =>
    obtain ⟨s₂, hs₂, hle⟩ := of_after?_bind (after?_of_cond hc h) fun _ s₂ =>
      (moves.increment step s₂).bind fun _ s₃ _ => moves.loop c body step s₃
    obtain ⟨s₃, hs₃, hsame⟩ := of_after?_nested hs₂
    exact ⟨n, s₃, hs₃, hsame ▸ hle⟩
  | step hc hbody =>
    exact ⟨n, of_after?_bind (behind hc hbody) fun _ s₃ => moves.loop c body step s₃⟩
  | repeated hc hbody hstep =>
    have hagain := after?_of_bind (x := fun k => Eval.increment k step)
      (fun k => (stepGrows k).increment step) hstep (behind hc hbody)
    exact ⟨n, s', hagain, le_rfl⟩

/-- A part of a conditional that has ended has ended itself. -/
theorem Starts.ended_branches {bs : List Branch} {otherwise : Option (List Stmt)} {part : Task}
    {s₁ s' : State} (hstart : Starts (.branches bs otherwise) s part s₁)
    (h : (Eval.branches (n + 1) bs otherwise s).after? = some s') :
    ∃ m s₂, part.after? m s₁ = some s₂ ∧ s₂.displayed ≤ s'.displayed := by
  have moves := compositional_moves.holds n
  cases hstart with
  | @guard b bs =>
    rw [Eval.branches] at h
    obtain ⟨s₂, hs₂, hle⟩ := of_after?_bind h fun holds s₁ => by
      cases holds with
      | true => exact (moves.stmts b.body _).nested
      | false => exact moves.branches bs otherwise s₁
    rw [after?_asStmt] at hs₂
    exact ⟨n, s₂, hs₂, hle⟩
  | taken hc =>
    rw [Eval.branches] at h
    obtain ⟨s₂, hs₂, hsame⟩ := of_after?_nested (after?_of_cond hc h)
    exact ⟨n, s₂, hs₂, le_of_eq hsame⟩
  | skipped hc =>
    rw [Eval.branches] at h
    exact ⟨n, s', after?_of_cond hc h, le_rfl⟩
  | otherwise =>
    rw [Eval.branches] at h
    obtain ⟨s₂, hs₂, hsame⟩ := of_after?_nested h
    exact ⟨n, s₂, hs₂, le_of_eq hsame⟩

/-- **A part of a task that has ended has ended itself**, and what it displayed stays displayed. -/
theorem Starts.ended {task part : Task} {s₁ s' : State} (hstart : Starts task s part s₁)
    (h : task.after? n s = some s') :
    ∃ m s₂, part.after? m s₁ = some s₂ ∧ s₂.displayed ≤ s'.displayed := by
  cases n with
  | zero =>
    rw [Task.after?_zero] at h
    cases h
  | succ n =>
    have moves := compositional_moves.holds n
    cases task with
    | expr e => exact hstart.ended_expr h
    | stmt st => exact hstart.ended_stmt h
    | branches bs otherwise => exact hstart.ended_branches h
    | loop c body step => exact hstart.ended_loop h
    | exprs es =>
      cases hstart with
      | head =>
        rw [Task.after?, Eval.exprs] at h
        exact ⟨n, of_after?_bind h fun v s₁ => (moves.exprs _ s₁).bind fun _ _ _ => moves_pure _⟩
      | tail hv =>
        rw [Task.after?, Eval.exprs] at h
        exact ⟨n, of_after?_bind (after?_of_expr hv h) fun _ _ => moves_pure _⟩
    | call decl args line =>
      cases hstart with
      | body hcheck hbind =>
        have hchecked : Action.checked line (decl.check args) s = .done () s := by
          rw [Action.checked, hcheck]
          rfl
        rw [Task.after?, Eval.call, bind_of_done hchecked, after?_settle] at h
        obtain ⟨s₂, hs₂, hsame⟩ := of_after?_called h
        rw [bind_of_done (asStmt_of_done hbind)] at hs₂
        exact ⟨n, s₂, hs₂, le_of_eq hsame⟩
    | cond e =>
      cases hstart with
      | condition =>
        rw [Task.after?, Eval.cond] at h
        exact ⟨n, of_after?_bind h fun _ _ => moves_ofExcept _ _⟩
    | stmts ss =>
      cases hstart with
      | first =>
        rw [Task.after?, Eval.stmts] at h
        exact ⟨n, of_after?_bind h fun _ s₁ => moves.stmts _ s₁⟩
      | next hst =>
        rw [Task.after?, Eval.stmts] at h
        exact ⟨n, s', after?_of_stmt hst h, le_rfl⟩
    | increment step =>
      cases hstart with
      | increment =>
        rw [Task.after?, Eval.increment, after?_asStmt] at h
        exact ⟨n, of_after?_bind h fun _ _ => moves_pure ()⟩

/-- Where a task that displays has ended, something has been displayed. -/
theorem Displays.displayed {task : Task} (hshows : Displays task s) {s' : State}
    (h : task.after? n s = some s') : s'.displayed = true := by
  induction hshows generalizing n s' with
  | here hv =>
    cases n with
    | zero =>
      rw [Task.after?_zero] at h
      cases h
    | succ n =>
      rw [Task.after?, Eval.stmt, after?_asStmt] at h
      exact displayed_of_display (after?_of_expr hv h)
  | part hstart _ ih =>
    obtain ⟨m, s₂, hs₂, hle⟩ := hstart.ended h
    rw [ih hs₂] at hle
    exact Bool.eq_true_of_true_le hle

/-- **Where a task has ended, something has been displayed exactly if it had been before or if the
task displays.** -/
theorem Task.displayed_iff {task : Task} {s' : State} (h : task.after? n s = some s') :
    s'.displayed = true ↔ s.displayed = true ∨ Displays task s := by
  by_cases hshows : Displays task s
  · have hshown := hshows.displayed h
    simp [hshown, hshows]
  · have hquiet := Task.quiet n hshows s' h
    simp [hquiet, hshows]

end Eval

end Sugod
