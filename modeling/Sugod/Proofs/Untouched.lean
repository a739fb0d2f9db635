import Sugod.Proofs.Isolation

/-!
# Variables that a program does not assign

Statements that neither assign a name nor accept input for it leave every variable of that name
alone which stands in a scope other than the global one (`Eval.stmts_spares`). They may declare the
name again, in scopes of their own, and they may call functions that assign it: the body of a
function does not see the scopes of its caller. A global variable is another matter, for every
function may assign it.
-/

set_option autoImplicit false

namespace Sugod

/-! ## The names that a tree assigns -/

mutual

/-- Whether a name is assigned in an expression. Functions that are literals in it do not count. -/
def Expr.assigns (name : String) : Expr → Bool
  | .literal _ _ => false
  | .var _ => false
  | .assign target e => target.lexeme == name || e.assigns name
  | .unary _ e => e.assigns name
  | .binary l _ r => l.assigns name || r.assigns name
  | .logical l _ r => l.assigns name || r.assigns name
  | .grouping e => e.assigns name
  | .call f _ args => f.assigns name || exprsAssign name args
termination_by structural e => e

/-- Whether a name is assigned in some expressions. -/
def exprsAssign (name : String) : List Expr → Bool
  | [] => false
  | e :: es => e.assigns name || exprsAssign name es
termination_by structural es => es

end

/-- Whether a name is assigned in an expression that may be absent. -/
def exprAssigns? (name : String) : Option Expr → Bool
  | none => false
  | some e => e.assigns name

mutual

/-- Whether a name is assigned, or input is accepted for it, in a statement. The body of a function
that is declared does not count. -/
def Stmt.assigns (name : String) : Stmt → Bool
  | .display e => e.assigns name
  | .expr e => e.assigns name
  | .accept targets => targets.any fun target => target.lexeme == name
  | .declare _ _ init _ => exprAssigns? name init
  | .block body => stmtsAssign name body
  | .choose first others otherwise =>
    first.assigns name || branchesAssign name others || bodyAssigns? name otherwise
  | .whileLoop c body => c.assigns name || stmtsAssign name body
  | .forLoop init c step body =>
    init.assigns name || c.assigns name || step.assigns name || stmtsAssign name body
  | .ret _ value => exprAssigns? name value
  | .fn _ => false
termination_by structural s => s

/-- Whether a name is assigned in some statements. -/
def stmtsAssign (name : String) : List Stmt → Bool
  | [] => false
  | s :: ss => s.assigns name || stmtsAssign name ss
termination_by structural ss => ss

/-- Whether a name is assigned in a body that may be absent. -/
def bodyAssigns? (name : String) : Option (List Stmt) → Bool
  | none => false
  | some body => stmtsAssign name body
termination_by structural body => body

/-- Whether a name is assigned in a branch. -/
def Branch.assigns (name : String) : Branch → Bool
  | ⟨cond, body⟩ => cond.assigns name || stmtsAssign name body
termination_by structural b => b

/-- Whether a name is assigned in some branches. -/
def branchesAssign (name : String) : List Branch → Bool
  | [] => false
  | b :: bs => b.assigns name || branchesAssign name bs
termination_by structural bs => bs

end

/-! ## Actions that leave a variable alone -/

namespace Action

variable {ε α β : Type} {id : ScopeId} {name : String}

/-- Whatever way a run of the action ends, the variable of the scope is what it was. -/
def Spares (id : ScopeId) (name : String) (x : Action ε α) : Prop :=
  ∀ s s' slot, (s.env.slotsAt id).find? name = some slot → (x s).after? = some s' →
    (s'.env.slotsAt id).find? name = some slot

/-- An action that does not change the environment leaves every variable alone. -/
theorem spares_of_env {x : Action ε α} (h : ∀ s s', (x s).after? = some s' → s'.env = s.env) :
    x.Spares id name := by
  intro s s' slot hslot hs
  rwa [h s s' hs]

theorem spares_spent : (spent : Action ε α).Spares id name :=
  spares_of_env fun _ _ h => nomatch h

theorem spares_pure (a : α) : (pure a : Action ε α).Spares id name :=
  spares_of_env fun s s' h => by cases h; rfl

theorem spares_stop (e : ε) : (stop e : Action ε α).Spares id name :=
  spares_of_env fun s s' h => by cases h; rfl

theorem spares_ofExcept (line : Nat) (x : Except Cause α) : (ofExcept line x).Spares id name :=
  spares_of_env fun s s' h => by cases x <;> cases h <;> rfl

theorem spares_onConsole (line : Nat) (f : Console → Except Cause α × Console) :
    (onConsole line f).Spares id name := by
  refine spares_of_env fun s s' h => ?_
  unfold onConsole at h
  split at h <;> cases h <;> rfl

theorem spares_display (line : Nat) (text : String) : (display line text).Spares id name :=
  fun s s' slot hslot h => spares_onConsole line _ { s with displayed := true } s' slot hslot h

theorem spares_onEnv {line : Nat} {f : Env → Except Cause Env}
    (hf : ∀ env env' slot, (env.slotsAt id).find? name = some slot → f env = .ok env' →
      (env'.slotsAt id).find? name = some slot) : (onEnv line f).Spares id name := by
  intro s s' slot hslot h
  unfold onEnv at h
  split at h
  · rename_i env hok
    cases h
    exact hf s.env env slot hslot hok
  · cases h
    exact hslot

/-- Assigning another name leaves the variable alone. -/
theorem spares_assign {target : Token} (hne : target.lexeme ≠ name) (v : Value) :
    (assign target v).Spares id name := by
  refine spares_onEnv fun env env' slot hslot hok => ?_
  obtain ⟨-, other, -, rfl⟩ := Env.assign_eq_ok_iff.mp hok
  rw [Env.find?_store, if_neg fun h => hne h.2.symm]
  exact hslot

/-- A declaration leaves the variables alone that are there. If it is made in their scope, it fails
or adds another name. -/
theorem spares_declare (target : Token) (new : Slot) : (declare target new).Spares id name := by
  refine spares_onEnv fun env env' slot hslot hok => ?_
  unfold Env.declare at hok
  split at hok
  · cases hok
  · rename_i hfresh
    obtain rfl := Except.ok.inj hok
    rcases Env.slotsAt_modifySlots_cases env (fun slots => (target.lexeme, new) :: slots)
      env.current id with ⟨rfl, hslots⟩ | hslots
    · have hne : name ≠ target.lexeme := by
        rintro rfl
        exact hfresh (by rw [hslot]; rfl)
      rw [hslots, Slots.find?_cons, if_neg hne]
      exact hslot
    · rw [hslots]
      exact hslot

theorem Spares.bind {x : Action ε α} {f : α → Action ε β} (hx : x.Spares id name)
    (hf : ∀ a, (f a).Spares id name) : (x >>= f).Spares id name := by
  intro s s' slot hslot h
  rw [bind_apply] at h
  cases hr : x s with
  | done a mid =>
    rw [hr] at h
    have hmid := hx s mid slot hslot (by rw [hr]; rfl)
    exact hf a mid s' slot hmid h
  | stop e mid =>
    rw [hr] at h
    cases h
    exact hx s s' slot hslot (by rw [hr]; rfl)
  | spent =>
    rw [hr] at h
    cases h

theorem Spares.asStmt {x : Action Fault α} (hx : x.Spares id name) : x.asStmt.Spares id name := by
  intro s s' slot hslot h
  rw [after?_asStmt] at h
  exact hx s s' slot hslot h

/-- A scope of its own is entered above the variable and left again. -/
theorem Spares.nested {x : Action ε α} (hx : x.Spares id name) (haffects : x.Affects Env.Change) :
    x.nested.Spares id name := by
  intro s s' slot hslot h
  unfold Action.nested inScope at h
  rw [Result.after?_mapAfter] at h
  obtain ⟨inner, hinner, rfl⟩ := Option.map_eq_some_iff.mp h
  have hlt : id < s.env.depth := Env.lt_depth_of_find? hslot
  have hdepth : inner.env.depth = s.env.depth + 1 := by
    rw [← Env.depth_push s.env s.env.current]
    exact (Env.Changes.sameShape (haffects _ inner hinner).1).depth
  have hbelow : id + 1 < inner.env.depth := by
    rw [hdepth]
    exact Nat.succ_lt_succ hlt
  have hkept := hx _ inner slot (by rw [Env.slotsAt_push]; exact hslot) hinner
  show ((inner.env.pop s.env.current).slotsAt id).find? name = some slot
  rw [Env.slotsAt_pop_of_lt _ hbelow]
  exact hkept

theorem spares_assignAll {targets : List (Token × Value)}
    (h : ∀ t ∈ targets, t.1.lexeme ≠ name) : (assignAll targets).Spares id name := by
  induction targets with
  | nil => exact spares_pure ()
  | cons target rest ih =>
    obtain ⟨htarget, hrest⟩ := List.forall_mem_cons.mp h
    exact (spares_assign htarget target.2).bind fun _ => ih hrest

end Action

/-! ## Evaluation -/

namespace Eval

open Sugod.Action

variable {id : ScopeId} {name : String}

/-- A call leaves all scopes but the global one alone. -/
theorem call_spares (hid : id ≠ globalScope) (n : Nat) (decl : FunDecl) (args : List Value)
    (line : Nat) : (call n decl args line).Spares id name := by
  intro s s' slot hslot h
  have hreturned := call_returned n decl args line (s := s) (t := s) ⟨fun _ => rfl, rfl, rfl, rfl⟩
  obtain ⟨t, -, hrelated⟩ := hreturned.left h
  have hlocals : s'.env.locals = s.env.locals := hrelated.env.left
  cases id with
  | zero => exact absurd rfl hid
  | succ i =>
    unfold Env.slotsAt at hslot ⊢
    rw [hlocals]
    exact hslot

theorem accept_spares {targets : List Token}
    (h : (targets.any fun target => target.lexeme == name) = false) :
    (accept targets).Spares id name := by
  unfold accept
  refine (spares_onConsole _ _).bind fun text => ?_
  refine (spares_ofExcept _ _).bind fun values => ?_
  refine spares_assignAll fun t ht => ?_
  have hmem : t.1 ∈ targets := (List.of_mem_zip ht).1
  simpa using List.any_eq_false.mp h t.1 hmem

/-- Evaluation with `n` steps leaves the variable alone if the name is not assigned. -/
structure SparesAll (id : ScopeId) (name : String) (n : Nat) : Prop where
  expr : ∀ e, e.assigns name = false → (expr n e).Spares id name
  exprs : ∀ es, exprsAssign name es = false → (exprs n es).Spares id name
  cond : ∀ e, e.assigns name = false → (cond n e).Spares id name
  stmt : ∀ s, s.assigns name = false → (stmt n s).Spares id name
  stmts : ∀ ss, stmtsAssign name ss = false → (stmts n ss).Spares id name
  branches : ∀ bs otherwise, branchesAssign name bs = false → bodyAssigns? name otherwise = false →
    (branches n bs otherwise).Spares id name
  loop : ∀ c body step, c.assigns name = false → stmtsAssign name body = false →
    exprAssigns? name step = false → (loop n c body step).Spares id name
  increment : ∀ step, exprAssigns? name step = false → (increment n step).Spares id name

section Step

variable {n : Nat} (ih : SparesAll id name n)

include ih

theorem block_spares {body : List Stmt} (h : stmtsAssign name body = false) :
    (nested (stmts n body)).Spares id name :=
  (ih.stmts body h).nested (stmts_affects n body)

theorem exprStep_spares (hid : id ≠ globalScope) (e : Expr) (h : e.assigns name = false) :
    (expr (n + 1) e).Spares id name := by
  cases e with
  | literal v line => rw [expr]; exact spares_pure v
  | var target =>
    rw [expr]
    exact fun s s' slot hslot hs => spares_ofExcept _ _ s s' slot hslot hs
  | grouping inner => rw [expr]; exact ih.expr inner h
  | assign target value =>
    obtain ⟨htarget, hvalue⟩ := Bool.or_eq_false_iff.mp h
    rw [expr]
    refine (ih.expr value hvalue).bind fun v => ?_
    exact (spares_assign (beq_eq_false_iff_ne.mp htarget) v).bind fun _ => spares_pure v
  | unary op operand =>
    rw [expr]
    exact (ih.expr operand h).bind fun v => spares_ofExcept _ _
  | binary left op right =>
    obtain ⟨hleft, hright⟩ := Bool.or_eq_false_iff.mp h
    rw [expr]
    refine (ih.expr left hleft).bind fun l => ?_
    exact (ih.expr right hright).bind fun r => spares_ofExcept _ _
  | logical left op right =>
    obtain ⟨hleft, hright⟩ := Bool.or_eq_false_iff.mp h
    rw [expr]
    refine (ih.expr left hleft).bind fun l => ?_
    cases l.truth? with
    | none => exact spares_stop _
    | some b =>
      show Spares id name (if Operator.settles op b then pure l else expr n right)
      split
      · exact spares_pure l
      · exact ih.expr right hright
  | call callee paren args =>
    obtain ⟨hcallee, hargs⟩ := Bool.or_eq_false_iff.mp h
    rw [expr]
    refine (ih.expr callee hcallee).bind fun f => (ih.exprs args hargs).bind fun vs => ?_
    cases f with
    | fn decl => exact call_spares hid n decl vs paren.line
    | builtin b => exact spares_onConsole _ _
    | _ => exact spares_stop _

theorem exprsStep_spares (es : List Expr) (h : exprsAssign name es = false) :
    (exprs (n + 1) es).Spares id name := by
  cases es with
  | nil => rw [exprs]; exact spares_pure []
  | cons e es =>
    obtain ⟨he, hes⟩ := Bool.or_eq_false_iff.mp h
    rw [exprs]
    exact (ih.expr e he).bind fun v => (ih.exprs es hes).bind fun vs => spares_pure (v :: vs)

theorem condStep_spares (e : Expr) (h : e.assigns name = false) :
    (cond (n + 1) e).Spares id name := by
  rw [cond]
  exact (ih.expr e h).bind fun v => spares_ofExcept _ _

theorem stmtStep_spares (s : Stmt) (h : s.assigns name = false) :
    (stmt (n + 1) s).Spares id name := by
  cases s with
  | display e =>
    rw [stmt]
    exact ((ih.expr e h).bind fun v => spares_display _ _).asStmt
  | expr e =>
    rw [stmt]
    exact ((ih.expr e h).bind fun _ => spares_pure ()).asStmt
  | accept targets => rw [stmt]; exact (accept_spares h).asStmt
  | declare target ty init mutable =>
    cases init with
    | none => rw [stmt]; exact (spares_declare target _).asStmt
    | some e =>
      rw [stmt]
      refine ((ih.expr e h).bind fun v => ?_).asStmt
      exact (spares_ofExcept _ _).bind fun w => spares_declare target _
  | block body => rw [stmt]; exact block_spares ih h
  | choose first others otherwise =>
    obtain ⟨hbranches, hotherwise⟩ := Bool.or_eq_false_iff.mp h
    rw [stmt]
    exact ih.branches (first :: others) otherwise hbranches hotherwise
  | whileLoop c body =>
    obtain ⟨hc, hbody⟩ := Bool.or_eq_false_iff.mp h
    rw [stmt]
    exact ih.loop c body none hc hbody rfl
  | forLoop init c step body =>
    obtain ⟨hheader, hbody⟩ := Bool.or_eq_false_iff.mp h
    obtain ⟨hinitc, hstep⟩ := Bool.or_eq_false_iff.mp hheader
    obtain ⟨hinit, hc⟩ := Bool.or_eq_false_iff.mp hinitc
    have haffects : (do stmt n init; loop n c body (some step)).Affects Env.Change :=
      (stmt_affects n init).bind fun _ _ _ _ => ((compositional_affects.holds n).loop _ _ _).changes
    rw [stmt]
    refine Spares.nested ?_ haffects
    exact (ih.stmt init hinit).bind fun _ => ih.loop c body (some step) hc hbody hstep
  | ret keyword value =>
    cases value with
    | none => rw [stmt]; exact spares_stop _
    | some e =>
      rw [stmt]
      exact (ih.expr e h).asStmt.bind fun v => spares_stop _
  | fn decl => rw [stmt]; exact (spares_declare decl.name _).asStmt

theorem stmtsStep_spares (ss : List Stmt) (h : stmtsAssign name ss = false) :
    (stmts (n + 1) ss).Spares id name := by
  cases ss with
  | nil => rw [stmts]; exact spares_pure ()
  | cons s ss =>
    obtain ⟨hs, hss⟩ := Bool.or_eq_false_iff.mp h
    rw [stmts]
    exact (ih.stmt s hs).bind fun _ => ih.stmts ss hss

theorem branchesStep_spares (bs : List Branch) (otherwise : Option (List Stmt))
    (h : branchesAssign name bs = false) (hotherwise : bodyAssigns? name otherwise = false) :
    (branches (n + 1) bs otherwise).Spares id name := by
  cases bs with
  | nil =>
    cases otherwise with
    | none => rw [branches]; exact spares_pure ()
    | some body => rw [branches]; exact block_spares ih hotherwise
  | cons b bs =>
    obtain ⟨c, body⟩ := b
    obtain ⟨hb, hbs⟩ := Bool.or_eq_false_iff.mp h
    obtain ⟨hcond, hbody⟩ := Bool.or_eq_false_iff.mp hb
    rw [branches]
    refine (ih.cond c hcond).asStmt.bind fun holds => ?_
    cases holds with
    | true => exact block_spares ih hbody
    | false => exact ih.branches bs otherwise hbs hotherwise

theorem loopStep_spares (c : Expr) (body : List Stmt) (step : Option Expr)
    (hc : c.assigns name = false) (hbody : stmtsAssign name body = false)
    (hstep : exprAssigns? name step = false) : (loop (n + 1) c body step).Spares id name := by
  rw [loop]
  refine (ih.cond c hc).asStmt.bind fun holds => ?_
  cases holds with
  | true =>
    refine (block_spares ih hbody).bind fun _ => ?_
    exact (ih.increment step hstep).bind fun _ => ih.loop c body step hc hbody hstep
  | false => exact spares_pure ()

theorem incrementStep_spares (step : Option Expr) (h : exprAssigns? name step = false) :
    (increment (n + 1) step).Spares id name := by
  cases step with
  | none => rw [increment]; exact spares_pure ()
  | some e =>
    rw [increment]
    exact ((ih.expr e h).bind fun _ => spares_pure ()).asStmt

end Step

theorem sparesAll (hid : id ≠ globalScope) (n : Nat) : SparesAll id name n := by
  induction n with
  | zero =>
    constructor <;> intros
    case expr => rw [expr]; exact spares_spent
    case exprs => rw [exprs]; exact spares_spent
    case cond => rw [cond]; exact spares_spent
    case stmt => rw [stmt]; exact spares_spent
    case stmts => rw [stmts]; exact spares_spent
    case branches => rw [branches]; exact spares_spent
    case loop => rw [loop]; exact spares_spent
    case increment => rw [increment]; exact spares_spent
  | succ n ih =>
    exact ⟨exprStep_spares ih hid, exprsStep_spares ih, condStep_spares ih, stmtStep_spares ih,
      stmtsStep_spares ih, branchesStep_spares ih, loopStep_spares ih, incrementStep_spares ih⟩

/-- **Statements that do not assign a name leave its variables alone**, those of the global scope
apart. -/
theorem stmts_spares (hid : id ≠ globalScope) {body : List Stmt} (h : stmtsAssign name body = false)
    (n : Nat) : (stmts n body).Spares id name :=
  (sparesAll hid n).stmts body h

end Eval

end Sugod
