import Sugod.Proofs.Effect

/-!
# Two runs side by side

Two runs of the same program, from states that agree in all but their environments, keep agreeing as
long as the environments stay related. What a relation between environments has to keep for this is
`Env.Simulation`: names mean the same on both sides, assigning and declaring have the same outcome,
and entering and leaving scopes go together. `Eval.Compositional` then carries it through evaluation
(`Env.Simulation.compositional`).

A relation is indexed by a number, the *height*, which goes up by one in a scope that is entered and
comes back when it is left. Statements that declare have to keep the relation above height 0 only,
so they need a scope to have been entered; expressions and parts of statements keep it at every
height.
-/

set_option autoImplicit false

namespace Sugod

/-- Two states that differ in their environments only, which are related by `R`. -/
structure State.Related (R : Env → Env → Prop) (s t : State) : Prop where
  env : R s.env t.env
  console : t.console = s.console
  callDepth : t.callDepth = s.callDepth
  displayed : t.displayed = s.displayed

/-- Two results that end in the same way, with the same value or for the same reason, in related
states; or both have spent their steps. -/
inductive Result.Related {ε α : Type} (R : Env → Env → Prop) : Result ε α → Result ε α → Prop
  | done (a : α) {s t : State} (h : s.Related R t) : Related R (.done a s) (.done a t)
  | stop (e : ε) {s t : State} (h : s.Related R t) : Related R (.stop e s) (.stop e t)
  | spent : Related R .spent .spent

/-- Two attempts to change an environment that both succeed, with related environments, or both fail
for the same cause. -/
inductive Env.SameOutcome (R : Env → Env → Prop) :
    Except Cause Env → Except Cause Env → Prop
  | ok {e f : Env} (h : R e f) : SameOutcome R (.ok e) (.ok f)
  | error (c : Cause) : SameOutcome R (.error c) (.error c)

/-- A relation between environments, at every height, that evaluation keeps. -/
structure Env.Simulation (R : Nat → Env → Env → Prop) : Prop where
  lookup : ∀ {h : Nat} {e f : Env}, R h e f → ∀ name, e.lookup? name = f.lookup? name
  assign : ∀ {h : Nat} {e f : Env}, R h e f → ∀ name v,
    SameOutcome (R h) (e.assign name v) (f.assign name v)
  declare : ∀ {h : Nat} {e f : Env}, R (h + 1) e f → ∀ name slot,
    SameOutcome (R (h + 1)) (e.declare name slot) (f.declare name slot)
  nest : ∀ {h : Nat} {e f : Env}, R h e f → R (h + 1) (e.push e.current) (f.push f.current)
  call : ∀ {h : Nat} {e f : Env}, R h e f → R (h + 1) (e.push globalScope) (f.push globalScope)
  leave : ∀ {h : Nat} {e f e' f' : Env}, R h e f → R (h + 1) e' f' →
    R h (e'.pop e.current) (f'.pop f.current)

/-- The same names with the same slots, in whatever order. -/
def Slots.Same (a b : Slots) : Prop :=
  ∀ name, a.find? name = b.find? name

theorem Slots.Same.setValue {a b : Slots} (h : a.Same b) (name : String) (v : Value) :
    (Slots.setValue name v a).Same (Slots.setValue name v b) := by
  intro key
  rw [find?_setValue, find?_setValue, h key]

theorem Slots.Same.cons {a b : Slots} (h : a.Same b) (name : String) (slot : Slot) :
    Slots.Same ((name, slot) :: a) ((name, slot) :: b) := by
  intro key
  rw [find?_cons, find?_cons, h key]

namespace Env

/-! ## Outcomes on two sides

If a name is found on both sides or on neither, and in scopes that have it with the same slot, then
all that is done with the name has the same outcome. -/

section SameOutcome

variable {L : ScopeId → ScopeId → Prop} {R : Env → Env → Prop} {e f : Env} {name : String}

theorem lookup?_eq_of_resolve (hfound : Option.Rel L (e.resolve name) (f.resolve name))
    (hslots : ∀ i j, L i j → (e.slotsAt i).Same (f.slotsAt j)) :
    e.lookup? name = f.lookup? name := by
  unfold lookup?
  cases he : e.resolve name <;> cases hf : f.resolve name <;> rw [he, hf] at hfound <;> cases hfound
  case some.some i j hij => exact hslots i j hij name

theorem sameOutcome_assign {v : Value} (hfound : Option.Rel L (e.resolve name) (f.resolve name))
    (hslots : ∀ i j, L i j → (e.slotsAt i).Same (f.slotsAt j))
    (hwrite : ∀ i j, L i j → i < e.depth →
      R (e.modifySlots (Slots.setValue name v) i) (f.modifySlots (Slots.setValue name v) j)) :
    SameOutcome R (e.assign name v) (f.assign name v) := by
  unfold assign
  cases he : e.resolve name <;> cases hf : f.resolve name <;> rw [he, hf] at hfound <;> cases hfound
  case none.none => exact .error _
  case some.some i j hij =>
    -- From here on both sides look at the same slot.
    simp only [← hslots i j hij name]
    cases hslot : (e.slotsAt i).find? name with
    | none => exact .error _
    | some slot =>
      simp only
      split
      · split
        · exact .error _
        · split
          · exact .ok (hwrite i j hij (lt_depth_of_find? hslot))
          · exact .error _
      · exact .error _

theorem sameOutcome_declare {slot : Slot}
    (hslots : (e.slotsAt e.current).Same (f.slotsAt f.current))
    (hadd : R (e.modifySlots (fun slots => (name, slot) :: slots) e.current)
      (f.modifySlots (fun slots => (name, slot) :: slots) f.current)) :
    SameOutcome R (e.declare name slot) (f.declare name slot) := by
  unfold declare
  rw [hslots name]
  split
  · exact .error _
  · exact .ok hadd

end SameOutcome

end Env

namespace Result.Related

variable {ε α β : Type} {Q R : Env → Env → Prop}

theorem mono {r₁ r₂ : Result ε α} (h : r₁.Related Q r₂) (hQR : ∀ e f, Q e f → R e f) :
    r₁.Related R r₂ := by
  cases h with
  | done a h => exact .done a ⟨hQR _ _ h.env, h.console, h.callDepth, h.displayed⟩
  | stop e h => exact .stop e ⟨hQR _ _ h.env, h.console, h.callDepth, h.displayed⟩
  | spent => exact .spent

/-- A state behind the first result is related to one behind the second. -/
theorem left {r₁ r₂ : Result ε α} (h : r₁.Related R r₂) {s : State} (hs : r₁.after? = some s) :
    ∃ t, r₂.after? = some t ∧ s.Related R t := by
  cases h <;> cases hs
  case done t h => exact ⟨t, rfl, h⟩
  case stop t h => exact ⟨t, rfl, h⟩

theorem right {r₁ r₂ : Result ε α} (h : r₁.Related R r₂) {t : State} (ht : r₂.after? = some t) :
    ∃ s, r₁.after? = some s ∧ s.Related R t := by
  cases h <;> cases ht
  case done s h => exact ⟨s, rfl, h⟩
  case stop s h => exact ⟨s, rfl, h⟩

/-- Related results stay related if the states behind them are changed in a related way. -/
theorem mapAfter {r₁ r₂ : Result ε α} (h : r₁.Related Q r₂) {f g : State → State}
    (hfg : ∀ s t, s.Related Q t → (f s).Related R (g t)) :
    (r₁.mapAfter f).Related R (r₂.mapAfter g) := by
  cases h with
  | done a h => exact .done a (hfg _ _ h)
  | stop e h => exact .stop e (hfg _ _ h)
  | spent => exact .spent

end Result.Related

namespace Action

variable {ε α β : Type} {Q : Env → Env → Prop} {R : Nat → Env → Env → Prop}

/-- At every height, related states lead to related results. -/
def Simulates (R : Nat → Env → Env → Prop) (x : Action ε α) : Prop :=
  ∀ h s t, s.Related (R h) t → (x s).Related (R h) (x t)

/-! ## Single runs

The states may be related in another way than the actions keep: what the primitive actions and the
combinations do to two related results holds for any relation. -/

theorem related_ofExcept (line : Nat) (x : Except Cause α) {s t : State} (h : s.Related Q t) :
    (ofExcept line x s).Related Q (ofExcept line x t) := by
  cases x with
  | ok a => exact .done a h
  | error c => exact .stop _ h

theorem related_onConsole (line : Nat) (f : Console → Except Cause α × Console) {s t : State}
    (h : s.Related Q t) : (onConsole line f s).Related Q (onConsole line f t) := by
  unfold onConsole
  rw [h.console]
  split
  · exact .done _ ⟨h.env, rfl, h.callDepth, h.displayed⟩
  · exact .stop _ ⟨h.env, rfl, h.callDepth, h.displayed⟩

theorem related_settle {ε' : Type} {x y : Action ε α} (f : Except ε α → Except ε' β) {s t : State}
    (h : (x s).Related Q (y t)) : (x.settle f s).Related Q (y.settle f t) := by
  unfold settle
  cases hx : x s <;> cases hy : y t <;> rw [hx, hy] at h <;> cases h
  case done.done a s' t' h =>
    cases hf : f (.ok a) with
    | ok b => simp only [hf]; exact .done b h
    | error e => simp only [hf]; exact .stop e h
  case stop.stop e s' t' h =>
    cases hf : f (.error e) with
    | ok b => simp only [hf]; exact .done b h
    | error e => simp only [hf]; exact .stop e h
  case spent.spent => exact .spent

/-- Runs in scopes of their own are related if the scopes are entered and left in a related way. -/
theorem related_inScope {x : Action ε α} (hx : x.Simulates R) {k : Nat} {p q : ScopeId}
    {s t : State} (hconsole : t.console = s.console) (hcalls : t.callDepth = s.callDepth)
    (hdisplayed : t.displayed = s.displayed) (henter : R k (s.env.push p) (t.env.push q))
    (hleave : ∀ e f, R k e f → Q (e.pop s.env.current) (f.pop t.env.current)) :
    (inScope p x s).Related Q (inScope q x t) := by
  have hinner : State.Related (R k) { s with env := s.env.push p } { t with env := t.env.push q } :=
    ⟨henter, hconsole, hcalls, hdisplayed⟩
  refine (hx k _ _ hinner).mapAfter fun s' t' h' => ?_
  exact ⟨hleave _ _ h'.env, h'.console, h'.callDepth, h'.displayed⟩

/-- The bodies of two calls are related if their scopes are entered and left in a related way. -/
theorem related_called {x : Action ε α} (hx : x.Simulates R) {k : Nat} {s t : State}
    (hconsole : t.console = s.console) (hcalls : t.callDepth = s.callDepth)
    (hdisplayed : t.displayed = s.displayed)
    (henter : R k (s.env.push globalScope) (t.env.push globalScope))
    (hleave : ∀ e f, R k e f → Q (e.pop s.env.current) (f.pop t.env.current)) :
    (called x s).Related Q (called x t) := by
  -- Both calls count themselves in and out again.
  have hdeeper : t.callDepth + 1 = s.callDepth + 1 := congrArg (· + 1) hcalls
  have hbody : (inScope globalScope x { s with callDepth := s.callDepth + 1 }).Related Q
      (inScope globalScope x { t with callDepth := t.callDepth + 1 }) :=
    related_inScope hx hconsole hdeeper hdisplayed henter hleave
  refine hbody.mapAfter fun s' t' h' => ?_
  exact ⟨h'.env, h'.console, congrArg (· - 1) h'.callDepth, h'.displayed⟩

/-! ## Actions that simulate -/

theorem simulates_spent : (spent : Action ε α).Simulates R :=
  fun _ _ _ _ => .spent

theorem simulates_stop (e : ε) : (stop e : Action ε α).Simulates R :=
  fun _ _ _ h => .stop e h

theorem simulates_checked (line : Nat) (f : Nat → Except Cause Unit) :
    (checked line f).Simulates R := by
  intro k s t h
  unfold checked
  rw [h.callDepth]
  exact related_ofExcept line _ h

theorem simulates_display (line : Nat) (text : String) : (display line text).Simulates R := by
  intro k s t h
  have hshown : State.Related (R k) { s with displayed := true } { t with displayed := true } :=
    ⟨h.env, h.console, h.callDepth, rfl⟩
  exact related_onConsole line _ hshown

theorem simulates_onEnv {line : Nat} {f : Env → Except Cause Env}
    (hf : ∀ {k e e'}, R k e e' → Env.SameOutcome (R k) (f e) (f e')) :
    (onEnv line f).Simulates R := by
  intro k s t h
  have hout := hf h.env
  unfold onEnv
  cases hs : f s.env <;> cases ht : f t.env <;> rw [hs, ht] at hout <;> cases hout
  case ok.ok h' => exact .done () ⟨h', h.console, h.callDepth, h.displayed⟩
  case error.error c => exact .stop _ h

theorem Simulates.bind {x : Action ε α} {f : α → Action ε β} (hx : x.Simulates R)
    (hf : ∀ a s s', x s = .done a s' → (f a).Simulates R) : (x >>= f).Simulates R := by
  intro k s t h
  have hr := hx k s t h
  rw [bind_apply, bind_apply]
  cases hs : x s <;> cases ht : x t <;> rw [hs, ht] at hr <;> cases hr
  case done.done a s' t' h' => exact hf a s s' hs k s' t' h'
  case stop.stop e s' t' h' => exact .stop e h'
  case spent.spent => exact .spent

theorem Simulates.asStmt {x : Action Fault α} (hx : x.Simulates R) : x.asStmt.Simulates R := by
  intro k s t h
  have hr := hx k s t h
  unfold Action.asStmt
  cases hs : x s <;> cases ht : x t <;> rw [hs, ht] at hr <;> cases hr
  case done.done a s' t' h' => exact .done a h'
  case stop.stop e s' t' h' => exact .stop _ h'
  case spent.spent => exact .spent

end Action

namespace Env.Simulation

open Sugod.Action

variable {R : Nat → Env → Env → Prop} (sim : Env.Simulation R)

include sim

theorem getVar (name : Token) : (Action.getVar name).Simulates R := by
  intro k s t h
  have hget : s.env.get name.lexeme = t.env.get name.lexeme := by
    unfold Env.get
    rw [sim.lookup h.env]
  unfold Action.getVar
  rw [hget]
  exact related_ofExcept name.line _ h

theorem nested {ε α : Type} {x : Action ε α} (hx : x.Simulates fun h => R (h + 1)) :
    x.nested.Simulates R :=
  fun _ _ _ h => related_inScope hx h.console h.callDepth h.displayed (sim.nest h.env)
    fun _ _ h' => sim.leave h.env h'

theorem called {ε α : Type} {x : Action ε α} (hx : x.Simulates fun h => R (h + 1)) :
    x.called.Simulates R :=
  fun _ _ _ h => related_called hx h.console h.callDepth h.displayed (sim.call h.env)
    fun _ _ h' => sim.leave h.env h'

/-- **Evaluation keeps a simulation.** -/
theorem compositional :
    Eval.Compositional (fun _ x => x.Simulates R) (fun _ x => x.Simulates R)
      (fun _ x => x.Simulates fun h => R (h + 1)) where
  spent := simulates_spent
  ofExcept line x := fun _ _ _ h => related_ofExcept line x h
  getVar := sim.getVar
  assign name v := simulates_onEnv fun h => sim.assign h name.lexeme v
  checked := simulates_checked
  readLine line := fun _ _ _ h => related_onConsole line _ h
  display := simulates_display
  builtin line b args := fun _ _ _ h => related_onConsole line (b.call args) h
  bindExpr := Simulates.bind
  call decl hx := fun k s t h => related_settle decl.result (sim.called hx k s t h)
  asStmt := Simulates.asStmt
  returned v line := simulates_stop (Interrupt.returned v line)
  bindPart := Simulates.bind
  nested := sim.nested
  part h := fun k s t hst => h (k + 1) s t hst
  bindStmt := Simulates.bind
  declare name slot _ :=
    Simulates.asStmt (x := Action.declare name slot)
      (simulates_onEnv fun h => sim.declare h name.lexeme slot)

end Env.Simulation

end Sugod
