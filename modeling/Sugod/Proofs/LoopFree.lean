import Sugod.Proofs.Ending
import Sugod.Proofs.StoreTyping

/-!
# Programs without loops end

A program without loops ends, whatever its functions call: they may call themselves and each other
without any condition. The main statement is `loopFree_ends`.

Two things go down while a program runs. A part of a tree is smaller than the tree; and where the
body of a function is entered, which may be any tree, the program is inside of one more call, of
which there are at most 1024 (`Eval.Starts.decreases`). That no loop is ever come to needs that all
functions which a program can get hold of are without loops: those in the tree and those in the
variables (`Eval.Starts.loopFree`).
-/

set_option autoImplicit false

namespace Sugod

/-! ## Trees without loops -/

mutual

/-- Whether there is no loop in a value. -/
def Value.loopFree : Value → Bool
  | .fn decl => decl.loopFree
  | _ => true
termination_by structural v => v

/-- Whether there is no loop in a function. -/
def FunDecl.loopFree : FunDecl → Bool
  | ⟨_, _, body, _⟩ => stmtsLoopFree body
termination_by structural decl => decl

/-- Whether there is no loop in an expression, which may hold functions as literals. -/
def Expr.loopFree : Expr → Bool
  | .literal v _ => v.loopFree
  | .var _ => true
  | .assign _ e => e.loopFree
  | .unary _ e => e.loopFree
  | .binary l _ r => l.loopFree && r.loopFree
  | .logical l _ r => l.loopFree && r.loopFree
  | .grouping e => e.loopFree
  | .call f _ args => f.loopFree && exprsLoopFree args
termination_by structural e => e

/-- Whether there is no loop in some expressions. -/
def exprsLoopFree : List Expr → Bool
  | [] => true
  | e :: es => e.loopFree && exprsLoopFree es
termination_by structural es => es

/-- Whether there is no loop in an expression that may be absent. -/
def exprLoopFree? : Option Expr → Bool
  | none => true
  | some e => e.loopFree
termination_by structural e => e

/-- Whether there is no loop in a statement. -/
def Stmt.loopFree : Stmt → Bool
  | .display e => e.loopFree
  | .expr e => e.loopFree
  | .accept _ => true
  | .declare _ _ init _ => exprLoopFree? init
  | .block body => stmtsLoopFree body
  | .choose first others otherwise =>
    first.loopFree && branchesLoopFree others && bodyLoopFree? otherwise
  | .whileLoop _ _ => false
  | .forLoop _ _ _ _ => false
  | .ret _ value => exprLoopFree? value
  | .fn decl => decl.loopFree
termination_by structural s => s

/-- Whether there is no loop in some statements. -/
def stmtsLoopFree : List Stmt → Bool
  | [] => true
  | s :: ss => s.loopFree && stmtsLoopFree ss
termination_by structural ss => ss

/-- Whether there is no loop in a body that may be absent. -/
def bodyLoopFree? : Option (List Stmt) → Bool
  | none => true
  | some body => stmtsLoopFree body
termination_by structural body => body

/-- Whether there is no loop in a branch. -/
def Branch.loopFree : Branch → Bool
  | ⟨cond, body⟩ => cond.loopFree && stmtsLoopFree body
termination_by structural b => b

/-- Whether there is no loop in some branches. -/
def branchesLoopFree : List Branch → Bool
  | [] => true
  | b :: bs => b.loopFree && branchesLoopFree bs
termination_by structural bs => bs

end

/-- Whether there is no loop in the tree that a task is busy with. -/
def Eval.Task.loopFree : Eval.Task → Bool
  | .expr e => e.loopFree
  | .exprs es => exprsLoopFree es
  | .call decl _ _ => decl.loopFree
  | .cond e => e.loopFree
  | .stmt s => s.loopFree
  | .stmts ss => stmtsLoopFree ss
  | .branches bs otherwise => branchesLoopFree bs && bodyLoopFree? otherwise
  | .loop _ _ _ => false
  | .increment _ => false

/-- Data is without loops. -/
theorem Value.loopFree_of_ty {v : Value} {ty : Ty} (h : v.ty? = some ty) : v.loopFree = true := by
  cases v with
  | fn decl => cases h
  | _ => rfl

/-! ## Variables without loops -/

/-- A variable that holds no function with a loop. -/
def Slot.LoopFree (slot : Slot) : Prop :=
  ∀ v, slot.value = some v → v.loopFree = true

/-- No variable holds a function with a loop. -/
def Env.LoopFree (env : Env) : Prop :=
  env.AllSlots Slot.LoopFree

namespace Slot

theorem loopFree_some {v : Value} (h : v.loopFree = true) (ty : Option Ty) (mutable : Bool) :
    LoopFree ⟨ty, some v, mutable⟩ := by
  intro w hw
  obtain rfl := Option.some.inj hw
  exact h

theorem loopFree_none (ty : Option Ty) (mutable : Bool) : LoopFree ⟨ty, none, mutable⟩ :=
  fun _ hv => nomatch hv

end Slot

namespace Env.LoopFree

variable {env env' : Env}

/-- Only data is ever written. -/
theorem writes (hf : env.LoopFree) (h : Env.Writes env env') : env'.LoopFree := by
  induction h with
  | refl => exact hf
  | tail _ hwrite ih =>
    obtain ⟨found, -, -, hv⟩ := hwrite
    exact AllSlots.setValue ih found (Slot.loopFree_some (Value.loopFree_of_ty hv) _ _)

theorem declare (hf : env.LoopFree) {name : String} {slot : Slot} (hslot : slot.LoopFree)
    (h : env.declare name slot = .ok env') : env'.LoopFree := by
  unfold Env.declare at h
  split at h
  · cases h
  · obtain rfl := Except.ok.inj h
    exact AllSlots.cons hf env.current name hslot

theorem get (hf : env.LoopFree) {name : String} {v : Value} (h : env.get name = .ok v) :
    v.loopFree = true := by
  unfold Env.get Env.lookup? at h
  cases hr : env.resolve name with
  | none => simp [hr] at h
  | some id =>
    simp only [hr] at h
    split at h
    · rename_i hslot
      cases h
      exact hf id name _ hslot v rfl
    · cases h
    · cases h

end Env.LoopFree

namespace Action

variable {ε α β : Type} {s s' : State}

/-- What only writes keeps the variables without loops. -/
theorem Affects.loopFree {x : Action ε α} (hx : x.Affects Env.Write) {a : α}
    (h : x s = .done a s') (hs : s.env.LoopFree) : s'.env.LoopFree :=
  hs.writes (hx s s' (by rw [h]; rfl)).1

theorem of_bind_eq_done {x : Action ε α} {f : α → Action ε β} {b : β}
    (h : (x >>= f) s = .done b s') : ∃ a s₁, x s = .done a s₁ ∧ f a s₁ = .done b s' := by
  rw [bind_apply] at h
  cases hx : x s with
  | done a s₁ =>
    rw [hx] at h
    exact ⟨a, s₁, rfl, h⟩
  | stop e s₁ =>
    rw [hx] at h
    cases h
  | spent =>
    rw [hx] at h
    cases h

theorem loopFree_of_declare {name : Token} {slot : Slot} {u : Unit} (hslot : slot.LoopFree)
    (h : declare name slot s = .done u s') (hs : s.env.LoopFree) : s'.env.LoopFree := by
  unfold declare onEnv at h
  cases hd : s.env.declare name.lexeme slot with
  | ok env =>
    simp only [hd] at h
    cases h
    exact hs.declare hslot hd
  | error c =>
    simp only [hd] at h
    cases h

end Action

/-! ## Values without loops -/

namespace Operator

theorem loopFree_onInts {m : Mark} {a b : Int64} {v : Value} (h : onInts m a b = some (.ok v)) :
    v.loopFree = true := by
  unfold onInts at h
  split at h <;> try split at h
  all_goals cases h
  all_goals rfl

theorem loopFree_onFloats {m : Mark} {a b : Float} {v : Value}
    (h : onFloats m a b = some (.ok v)) : v.loopFree = true := by
  unfold onFloats at h
  split at h <;> try split at h
  all_goals cases h
  all_goals rfl

theorem loopFree_binary {op : Token} {l r v : Value} (h : binary op l r = .ok v) :
    v.loopFree = true := by
  unfold binary at h
  split at h
  · cases h
    rfl
  · cases h
    rfl
  · cases h
    rfl
  · rename_i m _ _ _ _
    cases hm : onNumbers m l r with
    | none =>
      rw [hm] at h
      cases h
    | some outcome =>
      rw [hm] at h
      obtain rfl : outcome = .ok v := h
      unfold onNumbers at hm
      split at hm
      · exact loopFree_onInts hm
      · exact loopFree_onFloats hm
      · cases hm
  · cases h

theorem loopFree_unary {op : Token} {w v : Value} (h : unary op w = .ok v) : v.loopFree = true := by
  unfold unary at h
  split at h <;> cases h <;> rfl

end Operator

namespace Builtin

theorem loopFree_onNumber {b : Builtin} {f : Float → Float} {w v : Value}
    (h : b.onNumber f w = .ok v) : v.loopFree = true := by
  unfold onNumber at h
  cases hn : b.number w with
  | ok x =>
    rw [hn] at h
    cases h
    rfl
  | error c =>
    rw [hn] at h
    cases h

theorem loopFree_call {b : Builtin} {args : List Value} {console console' : Console} {v : Value}
    (h : b.call args console = (.ok v, console')) : v.loopFree = true := by
  unfold call at h
  split at h
  · cases h
    rfl
  · exact loopFree_onNumber (congrArg Prod.fst h)
  · exact loopFree_onNumber (congrArg Prod.fst h)
  · exact loopFree_onNumber (congrArg Prod.fst h)
  · have hmagnitude := congrArg Prod.fst h
    unfold magnitude at hmagnitude
    split at hmagnitude
    · cases hmagnitude
      rfl
    · exact loopFree_onNumber hmagnitude
  · have hpower := congrArg Prod.fst h
    unfold power at hpower
    split at hpower <;> cases hpower
    rfl
  · unfold ask at h
    split at h
    · cases h
    · split at h <;> cases h
      rfl
  · cases h

end Builtin

/-- The size of a branch is that of its parts. -/
theorem Branch.sizeOf_eq (b : Branch) : sizeOf b = 1 + sizeOf b.cond + sizeOf b.body := by
  cases b
  simp

namespace Eval

open Sugod.Action

/-- What a function returns is data or nothing. -/
theorem loopFree_of_call {n : Nat} {decl : FunDecl} {args : List Value} {line : Nat} {s s' : State}
    {v : Value} (h : call n decl args line s = .done v s') : v.loopFree = true := by
  have hreturns := returns_of_call h
  unfold FunDecl.Returns at hreturns
  split at hreturns
  · exact Value.loopFree_of_ty hreturns
  · rw [hreturns]
    rfl

/-- **An expression without loops has a value without loops.** Functions come from literals and from
variables only. -/
theorem loopFree_of_expr {n : Nat} {e : Expr} {s s' : State} {v : Value}
    (h : expr n e s = .done v s') (he : e.loopFree = true) (hs : s.env.LoopFree) :
    v.loopFree = true := by
  induction n generalizing e s s' v with
  | zero =>
    rw [Eval.expr] at h
    cases h
  | succ n ih =>
    cases e with
    | literal w line =>
      rw [Eval.expr] at h
      cases h
      exact he
    | var name =>
      rw [Eval.expr] at h
      exact hs.get (of_ofExcept_eq_done h).1
    | grouping inner =>
      rw [Eval.expr] at h
      exact ih h he hs
    | assign name value =>
      rw [Eval.expr] at h
      obtain ⟨w, s₁, hw, h⟩ := of_bind_eq_done h
      obtain ⟨_, s₂, _, h⟩ := of_bind_eq_done h
      cases h
      exact ih hw he hs
    | unary op operand =>
      rw [Eval.expr] at h
      obtain ⟨w, s₁, _, h⟩ := of_bind_eq_done h
      exact Operator.loopFree_unary (of_ofExcept_eq_done h).1
    | binary left op right =>
      rw [Eval.expr] at h
      obtain ⟨l, s₁, _, h⟩ := of_bind_eq_done h
      obtain ⟨r, s₂, _, h⟩ := of_bind_eq_done h
      exact Operator.loopFree_binary (of_ofExcept_eq_done h).1
    | logical left op right =>
      obtain ⟨hleft, hright⟩ := Bool.and_eq_true_iff.mp he
      rw [Eval.expr] at h
      obtain ⟨l, s₁, hl, h⟩ := of_bind_eq_done h
      cases hb : l.truth? with
      | none =>
        simp only [hb] at h
        cases h
      | some b =>
        simp only [hb] at h
        split at h
        · cases h
          exact ih hl hleft hs
        · exact ih h hright ((expr_affects n left).loopFree hl hs)
    | call callee paren args =>
      rw [Eval.expr] at h
      obtain ⟨f, s₁, _, h⟩ := of_bind_eq_done h
      obtain ⟨vs, s₂, _, h⟩ := of_bind_eq_done h
      cases f with
      | fn decl => exact loopFree_of_call h
      | builtin b =>
        simp only [onConsole] at h
        split at h
        · rename_i hcall
          cases h
          exact Builtin.loopFree_call hcall
        · cases h
      | _ => cases h

/-! ## What is left behind -/

theorem loopFree_of_bindParams {bindings : List (Param × Value)} {s s' : State} {u : Unit}
    (hty : ∀ b ∈ bindings, b.2.ty? = some b.1.ty) (h : bindParams bindings s = .done u s')
    (hs : s.env.LoopFree) : s'.env.LoopFree := by
  induction bindings generalizing s with
  | nil =>
    cases h
    exact hs
  | cons b rest ih =>
    obtain ⟨_, s₁, hfirst, h⟩ := of_bind_eq_done h
    have hv : b.2.loopFree = true := Value.loopFree_of_ty (hty b (by simp))
    refine ih (fun c hc => hty c (by simp [hc])) h ?_
    exact loopFree_of_declare (Slot.loopFree_some hv _ _) hfirst hs

/-- **A statement without loops leaves no function with a loop behind.** -/
theorem loopFree_of_stmt {n : Nat} {st : Stmt} {s s' : State} {u : Unit}
    (h : stmt n st s = .done u s') (hst : st.loopFree = true) (hs : s.env.LoopFree) :
    s'.env.LoopFree := by
  cases n with
  | zero =>
    rw [Eval.stmt] at h
    cases h
  | succ n =>
    have rules := compositional_affects
    have holds := rules.holds n
    cases st with
    | display e =>
      rw [Eval.stmt] at h
      exact (rules.bindExpr (holds.expr e) fun _ _ _ _ => rules.display _ _).loopFree
        (of_asStmt_eq_done h) hs
    | expr e =>
      rw [Eval.stmt] at h
      exact (rules.bindExpr (holds.expr e) fun _ _ _ _ => rules.pureExpr ()).loopFree
        (of_asStmt_eq_done h) hs
    | accept names =>
      rw [Eval.stmt] at h
      exact (rules.accept names).loopFree (of_asStmt_eq_done h) hs
    | declare name ty init mutable =>
      cases init with
      | none =>
        rw [Eval.stmt] at h
        exact loopFree_of_declare (Slot.loopFree_none _ _) (of_asStmt_eq_done h) hs
      | some e =>
        rw [Eval.stmt] at h
        obtain ⟨v, s₁, hv, h⟩ := of_bind_eq_done (of_asStmt_eq_done h)
        obtain ⟨w, s₂, hw, hdeclare⟩ := of_bind_eq_done h
        obtain ⟨hcheck, rfl⟩ := of_ofExcept_eq_done hw
        have hdata : w.loopFree = true := Value.loopFree_of_ty (ty_of_checkInit hcheck)
        exact loopFree_of_declare (Slot.loopFree_some hdata _ _) hdeclare
          ((expr_affects n e).loopFree hv hs)
    | block body =>
      rw [Eval.stmt] at h
      exact (holds.stmts body).nested.loopFree h hs
    | choose first others otherwise =>
      rw [Eval.stmt] at h
      exact (holds.branches _ otherwise).loopFree h hs
    | whileLoop => cases hst
    | forLoop => cases hst
    | ret keyword value =>
      cases value with
      | none =>
        rw [Eval.stmt] at h
        cases h
      | some e =>
        rw [Eval.stmt] at h
        obtain ⟨v, s₁, _, h⟩ := of_bind_eq_done h
        cases h
    | fn decl =>
      rw [Eval.stmt] at h
      have hvalue : (Value.fn decl).loopFree = true := hst
      exact loopFree_of_declare (Slot.loopFree_some hvalue _ _) (of_asStmt_eq_done h) hs

theorem Task.loopFree_branches {b : Branch} {bs : List Branch} {otherwise : Option (List Stmt)}
    (h : (Task.branches (b :: bs) otherwise).loopFree = true) :
    b.cond.loopFree = true ∧ stmtsLoopFree b.body = true ∧
      (Task.branches bs otherwise).loopFree = true := by
  obtain ⟨cond, body⟩ := b
  simp only [Task.loopFree, branchesLoopFree, Branch.loopFree, Bool.and_eq_true] at h ⊢
  exact ⟨h.1.1.1, h.1.1.2, h.1.2, h.2⟩

/-- **Parts of a task without loops are without loops**, and start where all variables are. -/
theorem Starts.loopFree {task part : Task} {s s₁ : State} (h : Starts task s part s₁)
    (htask : task.loopFree = true) (hs : s.env.LoopFree) :
    part.loopFree = true ∧ s₁.env.LoopFree := by
  have holds := compositional_affects.holds
  have nested : ∀ {s : State}, s.env.LoopFree → s.nested.env.LoopFree :=
    fun {s} hs => Env.AllSlots.push hs s.env.current
  cases h with
  | inner | assigned | operand | condition | displayed | evaluated | initial | returned =>
    exact ⟨htask, hs⟩
  | left | tested | callee | head | first => exact ⟨(Bool.and_eq_true_iff.mp htask).1, hs⟩
  | right hl => exact ⟨(Bool.and_eq_true_iff.mp htask).2, (expr_affects _ _).loopFree hl hs⟩
  | untested hl => exact ⟨(Bool.and_eq_true_iff.mp htask).2, (expr_affects _ _).loopFree hl hs⟩
  | arguments hf => exact ⟨(Bool.and_eq_true_iff.mp htask).2, (expr_affects _ _).loopFree hf hs⟩
  | tail hv => exact ⟨(Bool.and_eq_true_iff.mp htask).2, (expr_affects _ _).loopFree hv hs⟩
  | invoked hf hvs =>
    -- The function that is called is the value of an expression.
    have hdecl := loopFree_of_expr hf (Bool.and_eq_true_iff.mp htask).1 hs
    exact ⟨hdecl, ((holds _).exprs _).loopFree hvs ((expr_affects _ _).loopFree hf hs)⟩
  | @body decl _ _ _ _ hcheck hbind =>
    have hparams := loopFree_of_bindParams (FunDecl.ty_of_check hcheck) hbind
      (Env.AllSlots.push hs globalScope)
    cases decl
    exact ⟨htask, hparams⟩
  | block => exact ⟨htask, nested hs⟩
  | choose => exact ⟨htask, hs⟩
  | next hst =>
    obtain ⟨hfirst, hrest⟩ := Bool.and_eq_true_iff.mp htask
    exact ⟨hrest, loopFree_of_stmt hst hfirst hs⟩
  | guard => exact ⟨(Task.loopFree_branches htask).1, hs⟩
  | taken hc =>
    exact ⟨(Task.loopFree_branches htask).2.1, nested (((holds _).cond _).loopFree hc hs)⟩
  | skipped hc => exact ⟨(Task.loopFree_branches htask).2.2, ((holds _).cond _).loopFree hc hs⟩
  | otherwise => exact ⟨htask, nested hs⟩
  | whileLoop | forInit | forLoop | again | round | step | repeated | increment => cases htask

/-! ## What goes down -/

/-- The size of the tree that a task is busy with. A call has none: it is entered from an
expression, and the body of the function may be any tree. -/
noncomputable def Task.size : Task → Nat
  | expr e => 2 * sizeOf e
  | exprs es => 2 * sizeOf es
  | call _ _ _ => 0
  | cond e => 2 * sizeOf e + 1
  | stmt s => 2 * sizeOf s + 1
  | stmts ss => 2 * sizeOf ss
  | branches bs otherwise => 2 * (sizeOf bs + sizeOf otherwise)
  | loop _ _ _ => 0
  | increment _ => 0

/-- How many calls a program can still go into. -/
def callsLeft (s : State) : Nat :=
  maxCallDepth - s.callDepth

theorem callsLeft_of_done {ε α : Type} {r : Env → Env → Prop} {x : Action ε α} {s s' : State}
    {a : α} (hx : x.Affects r) (h : x s = .done a s') : callsLeft s' = callsLeft s := by
  unfold callsLeft
  rw [(hx s s' (by rw [h]; rfl)).2]

theorem lt_of_check {decl : FunDecl} {args : List Value} {callDepth : Nat}
    (h : decl.check args callDepth = .ok ()) : callDepth < maxCallDepth := by
  unfold FunDecl.check at h
  split at h
  · cases h
  · split at h
    · cases h
    · split at h
      · cases h
      · rename_i hroom
        exact Nat.lt_of_not_le hroom

/-- Entering the body of a function takes one of the calls that are left. -/
theorem callsLeft_of_bindParams {decl : FunDecl} {args : List Value} {s s₁ : State}
    (hcheck : decl.check args s.callDepth = .ok ())
    (hbind : bindParams (decl.params.zip args) s.called = .done () s₁) :
    callsLeft s₁ < callsLeft s := by
  have hroom := lt_of_check hcheck
  rw [callsLeft_of_done (bindParams_affects (FunDecl.ty_of_check hcheck)) hbind]
  show maxCallDepth - (s.callDepth + 1) < maxCallDepth - s.callDepth
  omega

/-- Apart from the body of a function, a part starts with as many calls left. -/
theorem Starts.callsLeft_eq {task part : Task} {s s₁ : State} (h : Starts task s part s₁)
    (htask : task.loopFree = true) (hcall : ∀ decl args line, task ≠ .call decl args line) :
    callsLeft s₁ = callsLeft s := by
  have holds := compositional_affects.holds
  cases h with
  | body => exact absurd rfl (hcall _ _ _)
  | inner | assigned | operand | left | tested | callee | head => rfl
  | condition | displayed | evaluated | initial | returned => rfl
  | block | choose | first | guard | otherwise => rfl
  | right hl | untested hl => exact callsLeft_of_done (expr_affects _ _) hl
  | arguments hf => exact callsLeft_of_done (expr_affects _ _) hf
  | tail hv => exact callsLeft_of_done (expr_affects _ _) hv
  | invoked hf hvs =>
    have hcallee := callsLeft_of_done (expr_affects _ _) hf
    exact (callsLeft_of_done ((holds _).exprs _) hvs).trans hcallee
  | next hst => exact callsLeft_of_done (stmt_affects _ _) hst
  | @taken n b _ _ _ s₁ hc =>
    have hcond : callsLeft s₁ = callsLeft s := callsLeft_of_done ((holds n).cond b.cond) hc
    exact hcond
  | skipped hc => exact callsLeft_of_done ((holds _).cond _) hc
  | whileLoop | forInit | forLoop | again | round | step | repeated | increment => cases htask

/-- Apart from the body of a function, a part is smaller than the whole. -/
theorem Starts.size_lt {task part : Task} {s s₁ : State} (h : Starts task s part s₁)
    (htask : task.loopFree = true) (hcall : ∀ decl args line, task ≠ .call decl args line) :
    part.size < task.size := by
  cases h with
  | body => exact absurd rfl (hcall _ _ _)
  | whileLoop | forInit | forLoop | again | round | step | repeated | increment => cases htask
  | inner | assigned | operand | left | right | tested | untested =>
    simp only [Task.size, Expr.grouping.sizeOf_spec, Expr.assign.sizeOf_spec,
      Expr.unary.sizeOf_spec, Expr.binary.sizeOf_spec, Expr.logical.sizeOf_spec]
    omega
  | callee | arguments | invoked =>
    simp only [Task.size, Expr.call.sizeOf_spec]
    omega
  | displayed | evaluated | initial | returned | block | choose =>
    simp only [Task.size, Stmt.display.sizeOf_spec, Stmt.expr.sizeOf_spec, Stmt.declare.sizeOf_spec,
      Stmt.ret.sizeOf_spec, Stmt.block.sizeOf_spec, Stmt.choose.sizeOf_spec,
      List.cons.sizeOf_spec, Option.some.sizeOf_spec]
    omega
  | condition | head | tail | first | next | skipped | otherwise =>
    simp only [Task.size, List.cons.sizeOf_spec, Option.some.sizeOf_spec]
    omega
  | @guard b | @taken _ b =>
    have hb := b.sizeOf_eq
    simp only [Task.size, List.cons.sizeOf_spec]
    omega

/-- **Where a part starts, there are fewer calls left, or the tree is smaller.** -/
theorem Starts.decreases {task part : Task} {s s₁ : State} (h : Starts task s part s₁)
    (htask : task.loopFree = true) :
    Prod.Lex (· < ·) (· < ·) (callsLeft s₁, part.size) (callsLeft s, task.size) := by
  by_cases hcall : ∀ decl args line, task ≠ .call decl args line
  · rw [h.callsLeft_eq htask hcall]
    exact .right _ (h.size_lt htask hcall)
  · push Not at hcall
    obtain ⟨decl, args, line, rfl⟩ := hcall
    cases h with
    | body hcheck hbind => exact .left _ _ (callsLeft_of_bindParams hcheck hbind)

/-- A task without loops cannot be followed from part to part for ever. -/
theorem Task.acc_of_loopFree {task : Task} {s : State} (htask : task.loopFree = true)
    (hs : s.env.LoopFree) :
    Acc (fun later earlier : Task × State => Starts earlier.1 earlier.2 later.1 later.2)
      (task, s) := by
  refine Acc.intro _ fun ⟨part, s₁⟩ hstart => ?_
  have hpart := Starts.loopFree hstart htask hs
  exact Task.acc_of_loopFree hpart.1 hpart.2
termination_by (callsLeft s, task.size)
decreasing_by exact Starts.decreases hstart htask

end Eval

/-- **Programs without loops end.** Take any session in which no variable holds a function with a
loop, with any input, and any program without loops, function literals included. From some number of
steps on, the program always has the same result: success or a fault. -/
theorem loopFree_ends (session : Session) (program : Program) (hs : session.env.LoopFree)
    (hprogram : stmtsLoopFree program = true) :
    ∃ outcome n, ∀ m, n ≤ m → session.interpret m program = some outcome := by
  have htask : (Eval.Task.stmts program).loopFree = true := hprogram
  have hstart : session.state.env.LoopFree := hs
  have hacc := Eval.Task.acc_of_loopFree htask hstart
  obtain ⟨r, hr, n, hn⟩ := Eval.Task.ends_of_acc hacc
  have hresult : ∀ m, n ≤ m → Eval.stmts m program session.state = r := hn
  unfold Session.interpret
  cases r with
  | done u st =>
    refine ⟨Session.acknowledge st, n, fun m hm => ?_⟩
    rw [hresult m hm]
  | stop i st =>
    refine ⟨(.error i.toFault, Session.ofState st), n, fun m hm => ?_⟩
    rw [hresult m hm]
  | spent => exact absurd rfl hr

/-- In a new session no variable holds a function with a loop. -/
theorem Session.loopFree_initialEnv : initialEnv.LoopFree :=
  allSlots_initialEnv fun _ => Slot.loopFree_some rfl _ _

/-- A function that calls itself, whatever happens. -/
def runaway : FunDecl :=
  ⟨⟨.identifier "f", "f", 1⟩, [],
    [.ret ⟨.mark .iuli, "IULI", 1⟩
      (some (.call (.var ⟨.identifier "f", "f", 1⟩) ⟨.mark .rightParen, ")", 1⟩ []))],
    some .int⟩

/-- A program that calls it. -/
def callRunaway : Program :=
  [.fn runaway, .expr (.call (.var ⟨.identifier "f", "f", 2⟩) ⟨.mark .rightParen, ")", 2⟩ [])]

/-- The function that calls itself for ever is stopped at some point. -/
theorem loopFree_ends_runaway :
    (Session.start {}).env.LoopFree ∧ stmtsLoopFree callRunaway = true ∧
      ∃ outcome n, ∀ m, n ≤ m → (Session.start {}).interpret m callRunaway = some outcome :=
  ⟨Session.loopFree_initialEnv, rfl,
    loopFree_ends (Session.start {}) callRunaway Session.loopFree_initialEnv rfl⟩

end Sugod
