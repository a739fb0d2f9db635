import Sugod.Proofs.History

/-!
# Scopes are left as they were entered

Blocks, branches, rounds of a loop and calls enter scopes, and every one of them can end early: by a
fault, by a failure of the console or by a return that passes through any number of them. The main
statement of this module, `scopes_kept`, says that nothing of this is left behind. After an
expression, a statement or a call has ended there are the same scopes as before with the same
parents, the same one is current and the program is inside of as many calls, and so between the
programs of a session there is only the global scope.
-/

set_option autoImplicit false

namespace Sugod

/-- The second state has the scopes of the first one and is inside of as many calls, and its scopes
are well-formed. -/
structure State.SameScopes (s s' : State) : Prop where
  depth : s'.env.depth = s.env.depth
  current : s'.env.current = s.env.current
  parent : ∀ id, s'.env.parent? id = s.env.parent? id
  callDepth : s'.callDepth = s.callDepth
  wellFormed : s'.env.WellFormed

/-- An action that changes nothing but variables keeps the scopes. -/
theorem Action.Affects.sameScopes {ε α : Type} {x : Action ε α} (h : x.Affects Env.Change)
    {s s' : State} (hwf : s.env.WellFormed) (hs : (x s).after? = some s') : s.SameScopes s' := by
  obtain ⟨hchanges, hdepth⟩ := h s s' hs
  have shape : s.env.SameShape s'.env := Env.Changes.sameShape hchanges
  exact ⟨shape.depth, shape.current, shape.parent, hdepth, shape.wellFormed hwf⟩

namespace Session

theorem depth_initialEnv : initialEnv.depth = 1 := rfl

theorem current_initialEnv : initialEnv.current = globalScope := rfl

/-- Between the programs of a session there is only the global scope. -/
theorem Reachable.global {s : Session} (h : s.Reachable) :
    s.env.depth = 1 ∧ s.env.current = globalScope := by
  have shape := Env.Changes.sameShape h.changes
  exact ⟨shape.depth.trans depth_initialEnv, shape.current.trans current_initialEnv⟩

end Session

/-- **Scopes are left as they were entered**, whatever way an expression, a statement or a call
ends; and a session is in the global scope alone after any number of programs. -/
theorem scopes_kept :
    (∀ (n : Nat) (e : Expr) (s s' : State), s.env.WellFormed →
      (Eval.expr n e s).after? = some s' → s.SameScopes s') ∧
    (∀ (n : Nat) (st : Stmt) (s s' : State), s.env.WellFormed →
      (Eval.stmt n st s).after? = some s' → s.SameScopes s') ∧
    (∀ (n : Nat) (decl : FunDecl) (args : List Value) (line : Nat) (s s' : State),
      s.env.WellFormed → (Eval.call n decl args line s).after? = some s' → s.SameScopes s') ∧
    (∀ session : Session, session.Reachable →
      session.env.depth = 1 ∧ session.env.current = globalScope) := by
  refine ⟨?_, ?_, ?_, ?_⟩
  · intro n e s s' hwf hs
    exact (Eval.expr_affects n e).changes.sameScopes hwf hs
  · intro n st s s' hwf hs
    exact (Eval.stmt_affects n st).sameScopes hwf hs
  · intro n decl args line s s' hwf hs
    exact (Eval.call_affects n decl args line).changes.sameScopes hwf hs
  · intro session h
    exact h.global

/-- A function that divides by zero in a block of its body. -/
def divider : FunDecl :=
  ⟨⟨.identifier "f", "f", 1⟩, [],
    [.block [.ret ⟨.mark .iuli, "IULI", 2⟩
      (some (.binary (.literal (.int 1) 2) ⟨.mark .slash, "/", 2⟩ (.literal (.int 0) 2)))]],
    some .int⟩

/-- A block that calls the function. -/
def dividing : Stmt :=
  .block [.expr (.call (.literal (.fn divider) 3) ⟨.mark .rightParen, ")", 3⟩ [])]

/-- The fault passes through the block of the function, its call and the block around the call, and
leaves the scopes alone; the same program is a failed step of a session. -/
theorem scopes_kept_dividing :
    (∃ s', (Eval.stmt 12 dividing ⟨({} : Env).push globalScope, {}, 7, false⟩).after? = some s' ∧
      State.SameScopes ⟨({} : Env).push globalScope, {}, 7, false⟩ s') ∧
    (∃ f session, (Session.start {}).interpret 14 [dividing] = some (.error f, session) ∧
      session.env.depth = 1 ∧ session.env.current = globalScope) := by
  constructor
  · have hwf : (({} : Env).push globalScope).WellFormed :=
      Env.wellFormed_empty.push (by decide)
    exact ⟨_, rfl, scopes_kept.2.1 12 dividing _ _ hwf rfl⟩
  · have hstep : (Session.start {}).interpret 14 [dividing] =
        some (.error ⟨.divideByZero, 2⟩, Session.start {}) := rfl
    have hreach : (Session.start {}).Reachable := ⟨{}, .single (.interpret 14 _ _ hstep)⟩
    exact ⟨_, _, hstep, scopes_kept.2.2.2 _ hreach⟩

end Sugod
