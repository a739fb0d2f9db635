import Sugod.Proofs.Compositional

/-!
# What a run does to the variables

The effect of evaluation on the environment, said once for all programs. Whatever way it ends,

* an expression or a call only makes writes (`Eval.expr_affects`, `Eval.call_affects`),
* a statement makes writes and declares names in the scope it stands in (`Eval.stmt_affects`),

and the number of function calls that the program is inside of is as before. What the scopes, the
slots and the types of the stored values keep over a run follows from this without looking at the
rules of evaluation again.
-/

set_option autoImplicit false

namespace Sugod

/-- The state behind a result; there is none if the steps were spent. -/
def Result.after? {ε α : Type} : Result ε α → Option State
  | done _ s => some s
  | stop _ s => some s
  | spent => none

namespace Result

variable {ε α : Type}

@[simp] theorem after?_done (a : α) (s : State) : (done a s : Result ε α).after? = some s := rfl

@[simp] theorem after?_stop (e : ε) (s : State) : (stop e s : Result ε α).after? = some s := rfl

@[simp] theorem after?_spent : (spent : Result ε α).after? = none := rfl

@[simp] theorem after?_mapAfter (f : State → State) (r : Result ε α) :
    (r.mapAfter f).after? = r.after?.map f := by
  cases r <;> rfl

end Result

namespace Action

variable {ε α β : Type} {r : Env → Env → Prop}

/-- Whatever way a run of the action ends, it has changed the environment by steps of `r`, and the
number of calls is as before. -/
def Affects (r : Env → Env → Prop) (x : Action ε α) : Prop :=
  ∀ s s', (x s).after? = some s' →
    Relation.ReflTransGen r s.env s'.env ∧ s'.callDepth = s.callDepth

/-! ## Primitive actions -/

theorem affects_spent : (spent : Action ε α).Affects r := by
  intro s s' h
  cases h

theorem affects_stop (e : ε) : (stop e : Action ε α).Affects r := by
  intro s s' h
  cases h
  exact ⟨.refl, rfl⟩

theorem affects_ofExcept (line : Nat) (x : Except Cause α) : (ofExcept line x).Affects r := by
  intro s s' h
  cases x <;> cases h <;> exact ⟨.refl, rfl⟩

theorem affects_onConsole (line : Nat) (f : Console → Except Cause α × Console) :
    (onConsole line f).Affects r := by
  intro s s' h
  unfold onConsole at h
  split at h <;> cases h <;> exact ⟨.refl, rfl⟩

theorem affects_display (line : Nat) (text : String) : (display line text).Affects r :=
  fun s s' h => affects_onConsole line _ { s with displayed := true } s' h

theorem affects_onEnv {line : Nat} {f : Env → Except Cause Env}
    (hf : ∀ env env', f env = .ok env' → r env env') : (onEnv line f).Affects r := by
  intro s s' h
  unfold onEnv at h
  split at h
  · rename_i env hok
    cases h
    exact ⟨.single (hf s.env env hok), rfl⟩
  · cases h
    exact ⟨.refl, rfl⟩

theorem affects_assign (name : Token) (v : Value) : (assign name v).Affects Env.Write :=
  affects_onEnv fun _ _ => Env.write_of_assign

theorem affects_declare (name : Token) {slot : Slot} (typed : slot.WellTyped) :
    (declare name slot).Affects Env.Change :=
  affects_onEnv fun _ _ => Env.change_of_declare typed

/-! ## Combinations -/

theorem Affects.changes {x : Action ε α} (h : x.Affects Env.Write) : x.Affects Env.Change := by
  intro s s' hs
  obtain ⟨henv, hdepth⟩ := h s s' hs
  exact ⟨Env.Writes.changes henv, hdepth⟩

theorem Affects.bind {x : Action ε α} {f : α → Action ε β} (hx : x.Affects r)
    (hf : ∀ a s s', x s = .done a s' → (f a).Affects r) : (x >>= f).Affects r := by
  intro s s' h
  rw [bind_apply] at h
  cases hr : x s with
  | done a mid =>
    rw [hr] at h
    obtain ⟨henv₁, hdepth₁⟩ := hx s mid (by rw [hr]; rfl)
    obtain ⟨henv₂, hdepth₂⟩ := hf a s mid hr mid s' h
    exact ⟨henv₁.trans henv₂, hdepth₂.trans hdepth₁⟩
  | stop e mid =>
    rw [hr] at h
    cases h
    exact hx s s' (by rw [hr]; rfl)
  | spent =>
    rw [hr] at h
    cases h

theorem after?_asStmt (x : Action Fault α) (s : State) : (x.asStmt s).after? = (x s).after? := by
  unfold asStmt
  cases x s <;> rfl

theorem Affects.asStmt {x : Action Fault α} (h : x.Affects r) : x.asStmt.Affects r := by
  intro s s' hs
  rw [after?_asStmt] at hs
  exact h s s' hs

theorem after?_settle {ε' : Type} (x : Action ε α) (f : Except ε α → Except ε' β) (s : State) :
    (x.settle f s).after? = (x s).after? := by
  unfold settle
  cases x s with
  | done a s' => cases hf : f (.ok a) <;> simp [hf]
  | stop e s' => cases hf : f (.error e) <;> simp [hf]
  | spent => rfl

theorem Affects.settle {ε' : Type} {x : Action ε α} (h : x.Affects r)
    (f : Except ε α → Except ε' β) : (x.settle f).Affects r := by
  intro s s' hs
  rw [after?_settle] at hs
  exact h s s' hs

/-- What an action changes in a scope of its own are, seen from outside, writes. -/
theorem Affects.inScope {x : Action ε α} (h : x.Affects Env.Change) (parent : ScopeId) :
    (inScope parent x).Affects Env.Write := by
  intro s s' hs
  unfold Action.inScope at hs
  rw [Result.after?_mapAfter] at hs
  obtain ⟨inner, hinner, rfl⟩ := Option.map_eq_some_iff.mp hs
  obtain ⟨henv, hdepth⟩ := h _ inner hinner
  exact ⟨Env.Changes.pop henv, hdepth⟩

theorem Affects.nested {x : Action ε α} (h : x.Affects Env.Change) :
    x.nested.Affects Env.Write :=
  fun s s' hs => h.inScope s.env.current s s' hs

theorem Affects.called {x : Action ε α} (h : x.Affects Env.Change) :
    x.called.Affects Env.Write := by
  intro s s' hs
  unfold Action.called at hs
  rw [Result.after?_mapAfter] at hs
  obtain ⟨inner, hinner, rfl⟩ := Option.map_eq_some_iff.mp hs
  obtain ⟨henv, hdepth⟩ := h.inScope globalScope _ inner hinner
  refine ⟨henv, ?_⟩
  -- The body is as many calls deep as it was when it began, which is one more than outside.
  show inner.callDepth - 1 = s.callDepth
  rw [hdepth]
  exact Nat.add_sub_cancel s.callDepth 1

end Action

namespace Eval

open Sugod.Action

/-- The effect on the variables is compositional: expressions and parts of statements write,
statements change. -/
theorem compositional_affects :
    Compositional (fun _ x => x.Affects Env.Write) (fun _ x => x.Affects Env.Write)
      (fun _ x => x.Affects Env.Change) where
  spent := affects_spent
  ofExcept := affects_ofExcept
  getVar name := fun s s' h => affects_ofExcept name.line _ s s' h
  assign := affects_assign
  checked line f := fun s s' h => affects_ofExcept line (f s.callDepth) s s' h
  readLine line := affects_onConsole line _
  display := affects_display
  builtin line b args := affects_onConsole line (b.call args)
  bindExpr := Affects.bind
  call decl h := h.called.settle decl.result
  asStmt := Affects.asStmt
  returned v line := affects_stop (Interrupt.returned v line)
  bindPart := Affects.bind
  nested := Affects.nested
  part := Affects.changes
  bindStmt := Affects.bind
  declare name _ typed := (affects_declare name typed).asStmt

variable (n : Nat)

/-- **An expression only writes.** -/
theorem expr_affects (e : Expr) : (expr n e).Affects Env.Write :=
  (compositional_affects.holds n).expr e

theorem call_affects (decl : FunDecl) (args : List Value) (line : Nat) :
    (call n decl args line).Affects Env.Write :=
  (compositional_affects.holds n).call decl args line

/-- **A statement writes and declares.** -/
theorem stmt_affects (s : Stmt) : (stmt n s).Affects Env.Change :=
  (compositional_affects.holds n).stmt s

theorem stmts_affects (ss : List Stmt) : (stmts n ss).Affects Env.Change :=
  (compositional_affects.holds n).stmts ss

end Eval

end Sugod
