import Sugod.Proofs.History
import Sugod.Proofs.Regular

/-!
# Returns stay in functions

The parser allows returns in functions only, and asks for one at the end of a function that has a
return type. This module shows what that is good for when programs run. The main statement is
`returns_stay_inside`: a source that is run never fails with a return outside of functions, and the
body of a function with a return type never ends without a return.

The first part is about all reasons for which a run can stop (`Action.StopsFor`). No rule of
evaluation fails with the cause `unexpectedReturn` by itself, and a return leaves a regular
statement only inside of a function. A call takes the returns of the body, so nothing has to be
known about the functions that variables hold from earlier programs.
-/

set_option autoImplicit false

namespace Sugod

/-- A fault that is not about a return outside of functions. -/
def Fault.IsOrdinary (f : Fault) : Prop :=
  f.cause ≠ .unexpectedReturn

/-- A reason to stop that can arise inside of a function, or outside of functions: an ordinary
fault, or a return that stands in a function. -/
def Interrupt.IsProper (inFn : Bool) : Interrupt → Prop
  | .returned _ _ => inFn = true
  | .fault f => f.IsOrdinary

/-! ## Causes -/

namespace Operator

theorem onInts_ne {m : Mark} {a b : Int64} : onInts m a b ≠ some (.error .unexpectedReturn) := by
  unfold onInts
  split <;> try split
  all_goals simp

theorem onFloats_ne {m : Mark} {a b : Float} :
    onFloats m a b ≠ some (.error .unexpectedReturn) := by
  unfold onFloats
  split <;> try split
  all_goals simp

theorem binary_ne (op : Token) (l r : Value) : binary op l r ≠ .error .unexpectedReturn := by
  unfold binary
  split
  · simp
  · simp
  · simp
  · rename_i m _ _ _ _
    cases hm : onNumbers m l r with
    | none => simp [mismatch]
    | some outcome =>
      rintro rfl
      unfold onNumbers at hm
      split at hm
      · exact onInts_ne hm
      · exact onFloats_ne hm
      · cases hm
  · simp [mismatch]

theorem unary_ne (op : Token) (v : Value) : unary op v ≠ .error .unexpectedReturn := by
  unfold unary
  split <;> simp

end Operator

namespace Builtin

theorem number_ne (b : Builtin) (v : Value) : b.number v ≠ .error .unexpectedReturn := by
  unfold number
  split <;> simp

theorem onNumber_ne (b : Builtin) (f : Float → Float) (v : Value) :
    b.onNumber f v ≠ .error .unexpectedReturn := by
  have hnumber := b.number_ne v
  unfold onNumber
  cases hn : b.number v with
  | ok x => simp [Except.map]
  | error c =>
    intro h
    cases h
    exact hnumber hn

theorem magnitude_ne (v : Value) : magnitude v ≠ .error .unexpectedReturn := by
  unfold magnitude
  split
  · simp
  · exact onNumber_ne _ _ _

theorem power_ne (x y : Value) : power x y ≠ .error .unexpectedReturn := by
  unfold power
  split
  · simp
  · rename_i hx
    rintro ⟨⟩
    exact number_ne _ _ hx
  · rename_i hy
    rintro ⟨⟩
    exact number_ne _ _ hy

theorem ask_ne (prompt : Value) (console : Console) :
    (ask prompt console).1 ≠ .error .unexpectedReturn := by
  unfold ask
  split
  · simp
  · split <;> simp

theorem call_ne (b : Builtin) (args : List Value) (console : Console) :
    (b.call args console).1 ≠ .error .unexpectedReturn := by
  unfold call
  split
  · simp
  · exact onNumber_ne _ _ _
  · exact onNumber_ne _ _ _
  · exact onNumber_ne _ _ _
  · exact magnitude_ne _
  · exact power_ne _ _
  · exact ask_ne _ _
  · simp

end Builtin

namespace Env

theorem get_ne (env : Env) (name : String) : env.get name ≠ .error .unexpectedReturn := by
  unfold get
  split <;> simp

theorem assign_ne (env : Env) (name : String) (v : Value) :
    env.assign name v ≠ .error .unexpectedReturn := by
  unfold assign
  repeat' split
  all_goals simp

theorem declare_ne (env : Env) (name : String) (slot : Slot) :
    env.declare name slot ≠ .error .unexpectedReturn := by
  unfold declare
  split <;> simp

end Env

namespace FunDecl

theorem checkTypes_ne (decl : FunDecl) (bindings : List (Param × Value)) :
    decl.checkTypes bindings ≠ .error .unexpectedReturn := by
  induction bindings with
  | nil => simp [checkTypes]
  | cons b rest ih =>
    unfold checkTypes
    split
    · exact ih
    · simp

theorem check_ne (decl : FunDecl) (args : List Value) (callDepth : Nat) :
    decl.check args callDepth ≠ .error .unexpectedReturn := by
  unfold check
  split
  · simp
  · split
    · rename_i htypes
      rintro ⟨⟩
      exact decl.checkTypes_ne _ htypes
    · split <;> simp

/-- What becomes of a body is an ordinary fault at worst, whatever returns there were in it. -/
theorem isOrdinary_result {decl : FunDecl} {outcome : Except Interrupt Unit} {f : Fault}
    (houtcome : ∀ i, outcome = .error i → i.IsProper true)
    (h : decl.result outcome = .error f) : f.IsOrdinary := by
  cases outcome with
  | ok _ =>
    simp only [result] at h
    split at h
    · cases h
    · cases h
      exact Cause.noConfusion
  | error i =>
    cases i with
    | fault g =>
      cases h
      exact houtcome _ rfl
    | returned v line =>
      cases v with
      | none =>
        simp only [result] at h
        split at h
        · cases h
        · cases h
          exact Cause.noConfusion
      | some v =>
        simp only [result] at h
        split at h
        · cases h
          exact Cause.noConfusion
        · split at h
          · cases h
          · cases h
            exact Cause.noConfusion

end FunDecl

namespace Eval

theorem checkInit_ne (ty : Ty) (v : Value) : checkInit ty v ≠ .error .unexpectedReturn := by
  unfold checkInit
  split <;> simp

theorem truth_ne (v : Value) : truth v ≠ .error .unexpectedReturn := by
  unfold truth
  split <;> simp

theorem entries_ne (count : Nat) (line : String) :
    entries count line ≠ .error .unexpectedReturn := by
  simp only [entries]
  repeat' split
  all_goals simp

end Eval

/-! ## Actions -/

namespace Action

variable {ε α β : Type} {P : ε → Prop}

/-- Whenever a run of the action stops, it is for a reason with the property. -/
def StopsFor (P : ε → Prop) (x : Action ε α) : Prop :=
  ∀ s e s', x s = .stop e s' → P e

theorem stopsFor_spent : (spent : Action ε α).StopsFor P := by
  intro s e s' h
  cases h

theorem stopsFor_pure (a : α) : (pure a : Action ε α).StopsFor P := by
  intro s e s' h
  cases h

theorem stopsFor_stop {e : ε} (he : P e) : (stop e : Action ε α).StopsFor P := by
  intro s e' s' h
  cases h
  exact he

theorem StopsFor.bind {x : Action ε α} {f : α → Action ε β} (hx : x.StopsFor P)
    (hf : ∀ a, (f a).StopsFor P) : (x >>= f).StopsFor P := by
  intro s e s' h
  rw [bind_apply] at h
  cases hr : x s with
  | done a mid =>
    rw [hr] at h
    exact hf a mid e s' h
  | stop e' mid =>
    rw [hr] at h
    cases h
    exact hx s e s' hr
  | spent =>
    rw [hr] at h
    cases h

theorem stopsFor_ofExcept {line : Nat} {x : Except Cause α} (hx : x ≠ .error .unexpectedReturn) :
    (ofExcept line x).StopsFor Fault.IsOrdinary := by
  intro s f s' h
  cases x with
  | ok a => cases h
  | error c =>
    cases h
    exact fun hc => hx (congrArg Except.error hc)

theorem stopsFor_checked {line : Nat} {f : Nat → Except Cause Unit}
    (hf : ∀ callDepth, f callDepth ≠ .error .unexpectedReturn) :
    (checked line f).StopsFor Fault.IsOrdinary :=
  fun s e s' h => stopsFor_ofExcept (hf s.callDepth) s e s' h

theorem stopsFor_onConsole {line : Nat} {f : Console → Except Cause α × Console}
    (hf : ∀ console, (f console).1 ≠ .error .unexpectedReturn) :
    (onConsole line f).StopsFor Fault.IsOrdinary := by
  intro s e s' h
  have hcause := hf s.console
  unfold onConsole at h
  split at h
  · cases h
  · rename_i c _ hc
    cases h
    rw [hc] at hcause
    exact fun hunexpected => hcause (congrArg Except.error hunexpected)

theorem stopsFor_onEnv {line : Nat} {f : Env → Except Cause Env}
    (hf : ∀ env, f env ≠ .error .unexpectedReturn) :
    (onEnv line f).StopsFor Fault.IsOrdinary := by
  intro s e s' h
  have hcause := hf s.env
  unfold onEnv at h
  split at h
  · cases h
  · rename_i c hc
    cases h
    rw [hc] at hcause
    exact fun hunexpected => hcause (congrArg Except.error hunexpected)

theorem stopsFor_getVar (name : Token) : (getVar name).StopsFor Fault.IsOrdinary :=
  fun s e s' h => stopsFor_ofExcept (s.env.get_ne name.lexeme) s e s' h

theorem stopsFor_assign (name : Token) (v : Value) : (assign name v).StopsFor Fault.IsOrdinary :=
  stopsFor_onEnv fun env => env.assign_ne name.lexeme v

theorem stopsFor_declare (name : Token) (slot : Slot) :
    (declare name slot).StopsFor Fault.IsOrdinary :=
  stopsFor_onEnv fun env => env.declare_ne name.lexeme slot

theorem stopsFor_assignAll (targets : List (Token × Value)) :
    (assignAll targets).StopsFor Fault.IsOrdinary := by
  induction targets with
  | nil => exact stopsFor_pure ()
  | cons target rest ih => exact (stopsFor_assign target.1 target.2).bind fun _ => ih

theorem stopsFor_readLine (line : Nat) : (readLine line).StopsFor Fault.IsOrdinary := by
  refine stopsFor_onConsole fun console => ?_
  split <;> simp

theorem stopsFor_display (line : Nat) (text : String) :
    (display line text).StopsFor Fault.IsOrdinary := by
  intro s e s' h
  refine stopsFor_onConsole (fun console => ?_) { s with displayed := true } e s' h
  split <;> simp

/-- A fault of an expression is a fault of the statement that it stands in. -/
theorem StopsFor.asStmt {x : Action Fault α} (hx : x.StopsFor Fault.IsOrdinary) (inFn : Bool) :
    x.asStmt.StopsFor (Interrupt.IsProper inFn) := by
  intro s i s' h
  unfold Action.asStmt at h
  cases hr : x s with
  | done a mid =>
    rw [hr] at h
    cases h
  | stop f mid =>
    rw [hr] at h
    cases h
    exact hx s f s' hr
  | spent =>
    rw [hr] at h
    cases h

theorem of_mapAfter_eq_stop {f : State → State} {r : Result ε α} {e : ε} {s' : State}
    (h : r.mapAfter f = .stop e s') : ∃ mid, r = .stop e mid := by
  cases r <;> cases h
  exact ⟨_, rfl⟩

theorem StopsFor.nested {x : Action ε α} (hx : x.StopsFor P) : x.nested.StopsFor P := by
  intro s e s' h
  obtain ⟨mid, hmid⟩ := of_mapAfter_eq_stop h
  exact hx _ e mid hmid

theorem StopsFor.called {x : Action ε α} (hx : x.StopsFor P) : x.called.StopsFor P := by
  intro s e s' h
  obtain ⟨mid, hmid⟩ := of_mapAfter_eq_stop h
  obtain ⟨inner, hinner⟩ := of_mapAfter_eq_stop hmid
  exact hx _ e inner hinner

/-- A call takes the returns of a body. -/
theorem StopsFor.settle {x : Action Interrupt Unit} (hx : x.StopsFor (Interrupt.IsProper true))
    (decl : FunDecl) : (x.settle decl.result).StopsFor Fault.IsOrdinary := by
  intro s f s' h
  unfold Action.settle at h
  cases hr : x s with
  | done a mid =>
    simp only [hr] at h
    cases hresult : decl.result (.ok a) with
    | ok v => simp [hresult] at h
    | error g =>
      simp only [hresult] at h
      cases h
      exact FunDecl.isOrdinary_result (fun _ hi => by cases hi) hresult
  | stop i mid =>
    simp only [hr] at h
    cases hresult : decl.result (.error i) with
    | ok v => simp [hresult] at h
    | error g =>
      simp only [hresult] at h
      cases h
      refine FunDecl.isOrdinary_result (fun j hj => ?_) hresult
      cases hj
      exact hx s i s' hr
  | spent =>
    simp only [hr] at h
    cases h

end Action

namespace Eval

open Sugod.Action

/-! ## Evaluation -/

theorem stopsFor_accept (names : List Token) : (accept names).StopsFor Fault.IsOrdinary := by
  unfold accept
  refine (stopsFor_readLine _).bind fun text => ?_
  exact (stopsFor_ofExcept (entries_ne _ text)).bind fun _ => stopsFor_assignAll _

theorem stopsFor_bindParams (bindings : List (Param × Value)) :
    (bindParams bindings).StopsFor Fault.IsOrdinary := by
  induction bindings with
  | nil => exact stopsFor_pure ()
  | cons b rest ih => exact (stopsFor_declare b.1.name _).bind fun _ => ih

/-- Statements that may stand inside of a function, or outside of functions. Inside of functions
this is any tree, since the body of a function in a variable may be any tree. -/
def StandIn (inFn : Bool) (ss : List Stmt) : Prop :=
  inFn = false → ∀ s ∈ ss, s.Regular (fun _ => True) false

/-- Evaluation with `n` steps stops for proper reasons. -/
structure StopsProperly (n : Nat) : Prop where
  expr : ∀ e, (expr n e).StopsFor Fault.IsOrdinary
  exprs : ∀ es, (exprs n es).StopsFor Fault.IsOrdinary
  call : ∀ decl args line, (call n decl args line).StopsFor Fault.IsOrdinary
  cond : ∀ e, (cond n e).StopsFor Fault.IsOrdinary
  stmt : ∀ {inFn s}, StandIn inFn [s] → (stmt n s).StopsFor (Interrupt.IsProper inFn)
  stmts : ∀ {inFn ss}, StandIn inFn ss → (stmts n ss).StopsFor (Interrupt.IsProper inFn)
  branches : ∀ {inFn bs otherwise}, (∀ b ∈ bs, StandIn inFn b.body) →
    (∀ body ∈ otherwise, StandIn inFn body) →
    (branches n bs otherwise).StopsFor (Interrupt.IsProper inFn)
  loop : ∀ {inFn body} c step, StandIn inFn body →
    (loop n c body step).StopsFor (Interrupt.IsProper inFn)
  increment : ∀ inFn step, (increment n step).StopsFor (Interrupt.IsProper inFn)

variable {n : Nat} {inFn : Bool}

/-! ### One step of each rule -/

section Step

variable (ih : StopsProperly n)

include ih

theorem exprStep_stopsFor (e : Expr) : (expr (n + 1) e).StopsFor Fault.IsOrdinary := by
  cases e with
  | literal v line => rw [Eval.expr]; exact stopsFor_pure v
  | var name => rw [Eval.expr]; exact stopsFor_getVar name
  | grouping inner => rw [Eval.expr]; exact ih.expr inner
  | assign name value =>
    rw [Eval.expr]
    refine (ih.expr value).bind fun v => ?_
    exact (stopsFor_assign name v).bind fun _ => stopsFor_pure v
  | unary op operand =>
    rw [Eval.expr]
    exact (ih.expr operand).bind fun v => stopsFor_ofExcept (Operator.unary_ne op v)
  | binary left op right =>
    rw [Eval.expr]
    refine (ih.expr left).bind fun l => ?_
    exact (ih.expr right).bind fun r => stopsFor_ofExcept (Operator.binary_ne op l r)
  | logical left op right =>
    rw [Eval.expr]
    refine (ih.expr left).bind fun l => ?_
    cases l.truth? with
    | none => exact stopsFor_stop Cause.noConfusion
    | some b =>
      show (if Operator.settles op b then pure l else Eval.expr n right).StopsFor _
      split
      · exact stopsFor_pure l
      · exact ih.expr right
  | call callee paren args =>
    rw [Eval.expr]
    refine (ih.expr callee).bind fun f => ?_
    refine (ih.exprs args).bind fun vs => ?_
    cases f with
    | fn decl => exact ih.call decl vs paren.line
    | builtin b => exact stopsFor_onConsole fun console => b.call_ne vs console
    | _ => exact stopsFor_stop Cause.noConfusion

theorem exprsStep_stopsFor (es : List Expr) : (exprs (n + 1) es).StopsFor Fault.IsOrdinary := by
  cases es with
  | nil => rw [Eval.exprs]; exact stopsFor_pure []
  | cons e es =>
    rw [Eval.exprs]
    refine (ih.expr e).bind fun v => ?_
    exact (ih.exprs es).bind fun vs => stopsFor_pure (v :: vs)

theorem callStep_stopsFor (decl : FunDecl) (args : List Value) (line : Nat) :
    (call (n + 1) decl args line).StopsFor Fault.IsOrdinary := by
  have hany : StandIn true decl.body := fun h => nomatch h
  rw [Eval.call]
  refine (stopsFor_checked fun callDepth => decl.check_ne args callDepth).bind fun _ => ?_
  have hbody := ((stopsFor_bindParams (decl.params.zip args)).asStmt true).bind
    fun _ => ih.stmts hany
  exact hbody.called.settle decl

theorem condStep_stopsFor (e : Expr) : (cond (n + 1) e).StopsFor Fault.IsOrdinary := by
  rw [Eval.cond]
  exact (ih.expr e).bind fun v => stopsFor_ofExcept (truth_ne v)

theorem stmtStep_stopsFor {s : Stmt} (hs : StandIn inFn [s]) :
    (stmt (n + 1) s).StopsFor (Interrupt.IsProper inFn) := by
  have regular : inFn = false → s.Regular (fun _ => True) false := fun h => hs h s (by simp)
  cases s with
  | display e =>
    rw [Eval.stmt]
    exact ((ih.expr e).bind fun v => stopsFor_display _ _).asStmt inFn
  | expr e =>
    rw [Eval.stmt]
    exact ((ih.expr e).bind fun _ => stopsFor_pure ()).asStmt inFn
  | accept names => rw [Eval.stmt]; exact (stopsFor_accept names).asStmt inFn
  | declare name ty init mutable =>
    cases init with
    | none => rw [Eval.stmt]; exact (stopsFor_declare name _).asStmt inFn
    | some e =>
      rw [Eval.stmt]
      refine StopsFor.asStmt ?_ inFn
      refine (ih.expr e).bind fun v => ?_
      exact (stopsFor_ofExcept (checkInit_ne ty v)).bind fun w => stopsFor_declare name _
  | block body =>
    rw [Eval.stmt]
    refine (ih.stmts fun h => ?_).nested
    cases regular h with
    | block hbody => exact hbody
  | choose first others otherwise =>
    rw [Eval.stmt]
    refine ih.branches (fun b hb h => ?_) (fun body hbody h => ?_)
    · cases regular h with
      | choose _ hbodies _ => exact hbodies b hb
    · cases regular h with
      | choose _ _ hotherwise => exact hotherwise body hbody
  | whileLoop c body =>
    rw [Eval.stmt]
    refine ih.loop c none fun h => ?_
    cases regular h with
    | whileLoop _ hbody => exact hbody
  | forLoop init c step body =>
    rw [Eval.stmt]
    refine StopsFor.nested ((ih.stmt fun h => ?_).bind fun _ => ih.loop c (some step) fun h => ?_)
    · cases regular h with
      | forLoop hinit _ _ _ => exact List.forall_mem_singleton.mpr hinit
    · cases regular h with
      | forLoop _ _ _ hbody => exact hbody
  | ret keyword value =>
    -- A regular return stands inside of a function.
    have inside : inFn = true := by
      cases inFn with
      | true => rfl
      | false =>
        cases regular rfl with
        | ret inside _ => exact inside
    cases value with
    | none => rw [Eval.stmt]; exact stopsFor_stop inside
    | some e =>
      rw [Eval.stmt]
      exact ((ih.expr e).asStmt inFn).bind fun v => stopsFor_stop inside
  | fn decl => rw [Eval.stmt]; exact (stopsFor_declare decl.name _).asStmt inFn

theorem stmtsStep_stopsFor {ss : List Stmt} (hss : StandIn inFn ss) :
    (stmts (n + 1) ss).StopsFor (Interrupt.IsProper inFn) := by
  cases ss with
  | nil => rw [Eval.stmts]; exact stopsFor_pure ()
  | cons s ss =>
    have hs : StandIn inFn [s] := fun h => List.forall_mem_singleton.mpr (hss h s (by simp))
    have hrest : StandIn inFn ss := fun h s' hs' => hss h s' (by simp [hs'])
    rw [Eval.stmts]
    exact (ih.stmt hs).bind fun _ => ih.stmts hrest

theorem branchesStep_stopsFor {bs : List Branch} {otherwise : Option (List Stmt)}
    (hbs : ∀ b ∈ bs, StandIn inFn b.body) (hotherwise : ∀ body ∈ otherwise, StandIn inFn body) :
    (branches (n + 1) bs otherwise).StopsFor (Interrupt.IsProper inFn) := by
  cases bs with
  | nil =>
    cases otherwise with
    | none => rw [Eval.branches]; exact stopsFor_pure ()
    | some body => rw [Eval.branches]; exact (ih.stmts (hotherwise body rfl)).nested
  | cons b bs =>
    obtain ⟨hb, hbs⟩ := List.forall_mem_cons.mp hbs
    rw [Eval.branches]
    refine ((ih.cond b.cond).asStmt inFn).bind fun holds => ?_
    cases holds with
    | true => exact (ih.stmts hb).nested
    | false => exact ih.branches hbs hotherwise

theorem loopStep_stopsFor {body : List Stmt} (c : Expr) (step : Option Expr)
    (hbody : StandIn inFn body) :
    (loop (n + 1) c body step).StopsFor (Interrupt.IsProper inFn) := by
  rw [Eval.loop]
  refine ((ih.cond c).asStmt inFn).bind fun holds => ?_
  cases holds with
  | true =>
    refine (ih.stmts hbody).nested.bind fun _ => ?_
    exact (ih.increment inFn step).bind fun _ => ih.loop c step hbody
  | false => exact stopsFor_pure ()

theorem incrementStep_stopsFor (inFn : Bool) (step : Option Expr) :
    (increment (n + 1) step).StopsFor (Interrupt.IsProper inFn) := by
  cases step with
  | none => rw [Eval.increment]; exact stopsFor_pure ()
  | some e =>
    rw [Eval.increment]
    exact ((ih.expr e).bind fun _ => stopsFor_pure ()).asStmt inFn

end Step

/-- **Evaluation stops for proper reasons**, with every number of steps. -/
theorem stopsProperly (n : Nat) : StopsProperly n := by
  induction n with
  | zero =>
    constructor <;> intros
    case expr => rw [Eval.expr]; exact stopsFor_spent
    case exprs => rw [Eval.exprs]; exact stopsFor_spent
    case call => rw [Eval.call]; exact stopsFor_spent
    case cond => rw [Eval.cond]; exact stopsFor_spent
    case stmt => rw [Eval.stmt]; exact stopsFor_spent
    case stmts => rw [Eval.stmts]; exact stopsFor_spent
    case branches => rw [Eval.branches]; exact stopsFor_spent
    case loop => rw [Eval.loop]; exact stopsFor_spent
    case increment => rw [Eval.increment]; exact stopsFor_spent
  | succ n ih =>
    exact ⟨exprStep_stopsFor ih, exprsStep_stopsFor ih, callStep_stopsFor ih, condStep_stopsFor ih,
      stmtStep_stopsFor ih, stmtsStep_stopsFor ih, branchesStep_stopsFor ih, loopStep_stopsFor ih,
      incrementStep_stopsFor ih⟩

/-! ## Bodies that end with a return -/

/-- A return is never gone beyond. -/
theorem stmt_ret_ne_done {s : Stmt} (hs : s.isRet = true) (n : Nat) (st st' : State) (u : Unit) :
    stmt n s st ≠ .done u st' := by
  intro h
  cases n with
  | zero =>
    rw [Eval.stmt] at h
    cases h
  | succ n =>
    cases s with
    | ret keyword value =>
      cases value with
      | none =>
        rw [Eval.stmt] at h
        cases h
      | some e =>
        rw [Eval.stmt, bind_apply] at h
        cases hv : (expr n e).asStmt st <;> rw [hv] at h <;> cases h
    | _ => cases hs

/-- **Statements of which the last one is a return do not end without a return.** -/
theorem stmts_ne_done {ss : List Stmt} (hss : ∃ s, ss.getLast? = some s ∧ s.isRet = true) (n : Nat)
    (st st' : State) (u : Unit) : stmts n ss st ≠ .done u st' := by
  induction ss generalizing n st with
  | nil =>
    obtain ⟨s, hs, -⟩ := hss
    cases hs
  | cons s ss ih =>
    intro h
    cases n with
    | zero =>
      rw [Eval.stmts] at h
      cases h
    | succ n =>
      rw [Eval.stmts, bind_apply] at h
      cases hs : stmt n s st with
      | done v mid =>
        rw [hs] at h
        cases ss with
        | nil =>
          obtain ⟨last, hlast, hret⟩ := hss
          obtain rfl := Option.some.inj hlast
          exact stmt_ret_ne_done hret n st mid v hs
        | cons next rest =>
          rw [List.getLast?_cons_cons] at hss
          exact ih hss n mid h
      | stop i mid =>
        rw [hs] at h
        cases h
      | spent =>
        rw [hs] at h
        cases h

end Eval

/-- The result of a call, with `fallOff` in place of what is given for a body that ended without a
return. -/
def FunDecl.resultOr (decl : FunDecl) (fallOff : Except Fault Value) :
    Except Interrupt Unit → Except Fault Value
  | .ok () => fallOff
  | .error i => decl.result (.error i)

namespace Action

variable {ε ε' α β : Type}

theorem of_mapAfter_eq_done {f : State → State} {r : Result ε α} {a : α} {s' : State}
    (h : r.mapAfter f = .done a s') : ∃ mid, r = .done a mid := by
  cases r <;> cases h
  exact ⟨_, rfl⟩

theorem called_ne_done {x : Action ε α} (hx : ∀ s a s', x s ≠ .done a s') (s : State) (a : α)
    (s' : State) : x.called s ≠ .done a s' := by
  intro h
  obtain ⟨mid, hmid⟩ := of_mapAfter_eq_done h
  obtain ⟨inner, hinner⟩ := of_mapAfter_eq_done hmid
  exact hx _ a inner hinner

/-- For an action that never ends normally it does not matter what becomes of a normal end. -/
theorem settle_eq_of_ne_done {x : Action ε α} (hx : ∀ s a s', x s ≠ .done a s')
    {f g : Except ε α → Except ε' β} (hfg : ∀ e, f (.error e) = g (.error e)) :
    x.settle f = x.settle g := by
  funext s
  unfold settle
  cases hr : x s with
  | done a s' => exact absurd hr (hx s a s')
  | stop e s' => simp only [hfg]
  | spent => rfl

end Action

namespace Eval

open Sugod.Action

/-- A call of a function whose body ends with a return does not depend on what is given for a body
that ended without one. -/
theorem call_eq_resultOr {decl : FunDecl}
    (hends : ∃ s, decl.body.getLast? = some s ∧ s.isRet = true) (fallOff : Except Fault Value)
    (n : Nat) (args : List Value) (line : Nat) :
    call (n + 1) decl args line = (do
      checked line (decl.check args)
      settle (called do
        asStmt (bindParams (decl.params.zip args))
        stmts n decl.body) (decl.resultOr fallOff)) := by
  have hbody : ∀ s u s', (asStmt (bindParams (decl.params.zip args)) >>= fun _ =>
      stmts n decl.body) s ≠ .done u s' := by
    intro s u s' h
    rw [bind_apply] at h
    cases hbind : asStmt (bindParams (decl.params.zip args)) s with
    | done v mid =>
      rw [hbind] at h
      exact stmts_ne_done hends n mid s' u h
    | stop i mid =>
      rw [hbind] at h
      cases h
    | spent =>
      rw [hbind] at h
      cases h
  have hsettle : settle (called do
        asStmt (bindParams (decl.params.zip args))
        stmts n decl.body) decl.result =
      settle (called do
        asStmt (bindParams (decl.params.zip args))
        stmts n decl.body) (decl.resultOr fallOff) :=
    settle_eq_of_ne_done (called_ne_done hbody) fun _ => rfl
  rw [Eval.call, hsettle]

end Eval

namespace Session

open Sugod.Eval

/-- An accepted program may stand outside of functions. -/
theorem standIn_of_parse {tokens : List Token} {p : Program} (h : Grammar.parse tokens = .ok p) :
    StandIn false p := by
  obtain ⟨decls, ss, rfl, hregular⟩ := Grammar.accepted_regular h
  intro _
  refine List.forall_mem_append.mpr ⟨?_, (hregular _).2⟩
  intro s hs
  obtain ⟨decl, -, rfl⟩ := List.mem_map.mp hs
  exact .fn trivial

theorem isOrdinary_of_interpret {n : Nat} {p : Program} (hp : StandIn false p) {s s' : Session}
    {f : Fault} (h : s.interpret n p = some (.error f, s')) : f.IsOrdinary := by
  rcases interpret_cases h with ⟨st, -, hack⟩ | ⟨i, st, hr, hf, -⟩
  · -- Only the acknowledgement can fail now, and it fails because of the console.
    obtain ⟨rfl, -, -⟩ := of_acknowledge_eq_error hack
    exact Cause.noConfusion
  · have hproper := (stopsProperly n).stmts hp s.state i st hr
    cases i with
    | returned v line => exact Bool.noConfusion hproper
    | fault g =>
      cases hf
      exact hproper

theorem isOrdinary_of_run {n : Nat} {source : String} {s s' : Session} {f : Fault}
    (h : s.run n source = some (.error (.fault f), s')) : f.IsOrdinary := by
  rcases run_cases h with ⟨_, he, -⟩ | ⟨_, -, he, -⟩ | ⟨p, outcome, hparse, -, hint, he⟩
  · cases he
  · cases he
  · cases outcome with
    | ok _ => cases he
    | error g =>
      cases he
      exact isOrdinary_of_interpret (standIn_of_parse hparse) hint

end Session

/-- The functions of an accepted program are regular. -/
theorem Grammar.fn_regular {tokens : List Token} {p : Program} (h : Grammar.parse tokens = .ok p)
    {decl : FunDecl} (hdecl : .fn decl ∈ p) : decl.Regular fun _ => False := by
  obtain ⟨decls, ss, rfl, hregular⟩ := Grammar.accepted_regular h
  obtain ⟨hdecls, hss⟩ := hregular fun _ => False
  rcases List.mem_append.mp hdecl with hmem | hmem
  · obtain ⟨_, hmem, ⟨⟩⟩ := List.mem_map.mp hmem
    exact hdecls _ hmem
  · -- Among the statements of the block there is no function.
    cases hss _ hmem with
    | fn hfalse => exact hfalse.elim

/-- **Returns stay in functions, and functions that have to return do.** Whatever a session has run
before, running a source never fails because of a return outside of functions. And if an accepted
program has a function with a return type, then the body of this function never ends normally, in no
state: it stops with a return or a fault. So what a call gives for a body that ends without a return
plays no part in any call of the function. -/
theorem returns_stay_inside :
    (∀ (session session' : Session) (n : Nat) (source : String) (f : Fault),
      session.run n source = some (.error (.fault f), session') →
        f.cause ≠ .unexpectedReturn) ∧
    (∀ (tokens : List Token) (p : Program) (decl : FunDecl), Grammar.parse tokens = .ok p →
      .fn decl ∈ p → decl.returnTy ≠ none →
      (∀ (n : Nat) (st : State), Eval.stmts n decl.body st = .spent ∨
        ∃ i st', Eval.stmts n decl.body st = .stop i st') ∧
      (∀ (fallOff : Except Fault Value) (n : Nat) (args : List Value) (line : Nat),
        Eval.call (n + 1) decl args line = (do
          Action.checked line (decl.check args)
          Action.settle (Action.called do
            Action.asStmt (Eval.bindParams (decl.params.zip args))
            Eval.stmts n decl.body) (decl.resultOr fallOff)))) := by
  refine ⟨fun session session' n source f h => Session.isOrdinary_of_run h, ?_⟩
  intro tokens p decl hparse hdecl hty
  have hends := (Grammar.fn_regular hparse hdecl).ends hty
  refine ⟨fun n st => ?_, Eval.call_eq_resultOr hends⟩
  cases hr : Eval.stmts n decl.body st with
  | done u st' => exact absurd hr (Eval.stmts_ne_done hends n st st' u)
  | stop i st' => exact .inr ⟨i, st', rfl⟩
  | spent => exact .inl rfl

/-- A function that returns from a block inside of a loop, and two calls of it, of which the second
one divides by zero. -/
def earlyReturn : String :=
  "BUHAT NUMERO f(NUMERO n) PUNDOK \x7b\n" ++
  "  SAMTANG (n > 0) PUNDOK \x7b IULI 1 / (n - 1) \x7d\n" ++
  "  IULI 0\n\x7d\nSUGOD f(2) f(1) KATAPUSAN"

theorem returns_stay_inside_early :
    (∃ session, (Session.start {}).run 30 earlyReturn =
      some (.error (.fault ⟨.divideByZero, 2⟩), session) ∧
        Cause.divideByZero ≠ .unexpectedReturn) ∧
    (Grammar.parse Grammar.doublingTokens = .ok Grammar.doubling ∧
      .fn Grammar.twice ∈ Grammar.doubling ∧ Grammar.twice.returnTy ≠ none ∧
      ∀ st, Eval.stmts 3 Grammar.twice.body st = .spent ∨
        ∃ i st', Eval.stmts 3 Grammar.twice.body st = .stop i st') := by
  have hfault : ((Session.start {}).run 30 earlyReturn).map Prod.fst =
      some (.error (.fault ⟨.divideByZero, 2⟩)) := by decide +kernel
  have hparse : Grammar.parse Grammar.doublingTokens = .ok Grammar.doubling := rfl
  have hdecl : .fn Grammar.twice ∈ Grammar.doubling := List.mem_cons_self
  have hty : Grammar.twice.returnTy ≠ none := Option.some_ne_none _
  refine ⟨?_, hparse, hdecl, hty, (returns_stay_inside.2 _ _ _ hparse hdecl hty).1 3⟩
  obtain ⟨⟨r, session⟩, hrun, hr⟩ := Option.map_eq_some_iff.mp hfault
  cases hr
  exact ⟨session, hrun, returns_stay_inside.1 _ _ _ _ _ hrun⟩

end Sugod
