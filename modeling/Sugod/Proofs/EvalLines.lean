import Sugod.Proofs.Renumber
import Sugod.Proofs.Simulation

/-!
# Running with other line numbers

A program with other line numbers, run in a state with other line numbers in its functions, does the
same, up to line numbers: step by step, in every way of ending (`Renumbering.followsEval`).

Lines decide something in one place only, where functions are compared. So it has to be known which
functions a run can meet, and that comparing them gives the same answer with other lines. This is
what a `Renumbering` provides. That the run meets no other functions is part of the relation between
the two runs: all functions in variables and in values that are passed on are known.
-/

set_option autoImplicit false

namespace Sugod

/-- A fault with another line number. -/
def Fault.renumber (f : Nat → Nat) (e : Fault) : Fault :=
  { e with line := f e.line }

/-- New line numbers, and the functions that a run can meet: their bodies hold no other functions,
and comparing two of them gives the same answer with the new line numbers. -/
structure Renumbering where
  line : Nat → Nat
  known : FunDecl → Prop
  regular : ∀ {decl}, known decl → ∀ s ∈ decl.body, s.Regular known true
  equal : ∀ {a b}, known a → known b → (a.renumber line).equal (b.renumber line) = a.equal b

/-- Two ways to end that are both normal, with values related by `A`, or both are not, for reasons
related by `E`. -/
inductive EndAlike {ε α : Type} (E : ε → ε → Prop) (A : α → α → Prop) :
    Except ε α → Except ε α → Prop
  | ok {a a' : α} (ha : A a a') : EndAlike E A (.ok a) (.ok a')
  | error {e e' : ε} (he : E e e') : EndAlike E A (.error e) (.error e')

theorem EndAlike.refl {ε α : Type} {A : α → α → Prop} {x : Except ε α}
    (hx : ∀ a, x = .ok a → A a a) : EndAlike Eq A x x := by
  cases x with
  | ok a => exact .ok (hx a rfl)
  | error e => exact .error rfl

/-! ## Operators and built-in functions -/

namespace Operator

variable {f : Nat → Nat} {v : Value}

theorem onNumbers_renumber (m : Mark) (l r : Value) :
    onNumbers m (l.renumber f) (r.renumber f) = onNumbers m l r := by
  cases l <;> cases r <;> rfl

theorem binary_renumber (op : Token) {l r : Value}
    (hequal : (l.renumber f).equal (r.renumber f) = l.equal r) :
    binary (op.renumber f) (l.renumber f) (r.renumber f) = binary op l r := by
  simp only [binary, mismatch, Token.renumber, hequal, onNumbers_renumber, Value.text_renumber,
    Value.tag_renumber]

theorem unary_renumber (op : Token) (v : Value) :
    unary (op.renumber f) (v.renumber f) = unary op v := by
  obtain ⟨kind, lexeme, line⟩ := op
  cases v with
  | fn decl =>
    cases kind with
    | mark m => cases m <;> rfl
    | _ => rfl
  | _ => rfl

theorem known_of_onNumbers {m : Mark} {l r : Value} (h : onNumbers m l r = some (.ok v)) :
    v.Known fun _ => False := by
  intro decl hv
  subst hv
  unfold onNumbers at h
  split at h
  · unfold onInts at h
    split at h <;> try split at h
    all_goals simp at h
  · unfold onFloats at h
    split at h <;> try split at h
    all_goals simp at h
  · cases h

/-- The value of an operation is no function. -/
theorem known_of_binary {op : Token} {l r : Value} (h : binary op l r = .ok v) :
    v.Known fun _ => False := by
  unfold binary at h
  split at h
  · cases h
    exact fun _ hv => nomatch hv
  · cases h
    exact fun _ hv => nomatch hv
  · cases h
    exact fun _ hv => nomatch hv
  · rename_i m _ _ _ _
    cases hm : onNumbers m l r with
    | none => simp [hm, mismatch] at h
    | some outcome =>
      rw [hm] at h
      exact known_of_onNumbers (hm.trans (congrArg some h))
  · cases h

theorem known_of_unary {op : Token} {w : Value} (h : unary op w = .ok v) :
    v.Known fun _ => False := by
  intro decl hv
  subst hv
  unfold unary at h
  split at h <;> cases h

end Operator

namespace Builtin

variable {f : Nat → Nat} {v : Value}

theorem number_renumber (b : Builtin) (v : Value) : b.number (v.renumber f) = b.number v := by
  cases v <;> rfl

theorem magnitude_renumber (v : Value) : magnitude (v.renumber f) = magnitude v := by
  cases v <;> rfl

theorem call_renumber (b : Builtin) (args : List Value) (console : Console) :
    b.call (args.map (Value.renumber f)) console = b.call args console := by
  rcases args with _ | ⟨x, _ | ⟨y, _ | ⟨z, rest⟩⟩⟩
  · rfl
  · cases b <;>
      simp only [List.map_cons, List.map_nil, call, onNumber, number_renumber, magnitude_renumber,
        ask, Value.text_renumber, List.length_cons, List.length_nil]
  · cases b <;>
      simp only [List.map_cons, List.map_nil, call, power, number_renumber, List.length_cons,
        List.length_nil]
  · cases b <;> simp only [List.map_cons, call, List.length_cons, List.length_map]

theorem known_of_onNumber {b : Builtin} {g : Float → Float} {w : Value}
    (h : b.onNumber g w = .ok v) : v.Known fun _ => False := by
  intro decl hv
  subst hv
  unfold onNumber at h
  cases hn : b.number w <;> rw [hn] at h <;> cases h

/-- The value of a built-in function is no function. -/
theorem known_of_call {b : Builtin} {args : List Value} {console : Console}
    (h : (b.call args console).1 = .ok v) : v.Known fun _ => False := by
  unfold call at h
  split at h
  · cases h
    exact fun _ hv => nomatch hv
  · exact known_of_onNumber h
  · exact known_of_onNumber h
  · exact known_of_onNumber h
  · simp only [magnitude] at h
    split at h
    · cases h
      exact fun _ hv => nomatch hv
    · exact known_of_onNumber h
  · simp only [power] at h
    split at h <;> cases h
    exact fun _ hv => nomatch hv
  · simp only [ask] at h
    split at h
    · cases h
    · split at h <;> cases h
      exact fun _ hv => nomatch hv
  · cases h

end Builtin

namespace Entry

/-- The values of an input line are no functions. -/
theorem known_of_mem_values {line : String} {v : Value} (hv : v ∈ values line) :
    v.Known fun _ => False := by
  obtain ⟨field, -, rfl⟩ := List.mem_map.mp hv
  intro decl hdecl
  unfold fieldValue at hdecl
  split at hdecl
  · cases hdecl
  · split at hdecl
    · cases hdecl
    · unfold textValue at hdecl
      split at hdecl
      · cases hdecl
      · split at hdecl
        · cases hdecl
        · split at hdecl <;> cases hdecl

end Entry

namespace FunDecl

variable {f : Nat → Nat}

theorem checkTypes_renumber (decl : FunDecl) (bindings : List (Param × Value)) :
    (decl.renumber f).checkTypes (bindings.map (Prod.map (Param.renumber f) (Value.renumber f))) =
      decl.checkTypes bindings := by
  induction bindings with
  | nil => rfl
  | cons b rest ih =>
    obtain ⟨param, v⟩ := b
    simp only [List.map_cons, Prod.map_apply, checkTypes, ih, Value.ty?_renumber,
      Value.tag_renumber, Param.renumber, name_renumber, Token.renumber]

theorem check_renumber (decl : FunDecl) (args : List Value) (callDepth : Nat) :
    (decl.renumber f).check (args.map (Value.renumber f)) callDepth =
      decl.check args callDepth := by
  have hzip : (decl.params.map (Param.renumber f)).zip (args.map (Value.renumber f)) =
      (decl.params.zip args).map (Prod.map (Param.renumber f) (Value.renumber f)) :=
    List.zip_map
  simp only [check, params_renumber, List.length_map, hzip, checkTypes_renumber]

end FunDecl

/-! ## The relation between the two runs -/

namespace Renumbering

variable (ρ : Renumbering)

/-- A value and the same value with new line numbers. -/
structure Values (v w : Value) : Prop where
  eq : w = v.renumber ρ.line
  known : v.Known ρ.known

/-- Values and the same values with new line numbers. -/
structure ValueLists (vs ws : List Value) : Prop where
  eq : ws = vs.map (Value.renumber ρ.line)
  known : ∀ v ∈ vs, v.Known ρ.known

/-- A fault and the same fault with a new line number. -/
def Faults (e e' : Fault) : Prop :=
  e' = e.renumber ρ.line

/-- A reason to stop and the same reason with new line numbers. -/
inductive Interrupts : Interrupt → Interrupt → Prop
  | bare (line : Nat) : Interrupts (.returned none line) (.returned none (ρ.line line))
  | returned {v w : Value} (hv : ρ.Values v w) (line : Nat) :
      Interrupts (.returned (some v) line) (.returned (some w) (ρ.line line))
  | fault {e e' : Fault} (he : ρ.Faults e e') : Interrupts (.fault e) (.fault e')

/-- A variable whose value is no unknown function. -/
def KnownSlot (slot : Slot) : Prop :=
  ∀ v ∈ slot.value, v.Known ρ.known

/-- An environment and the same environment with new line numbers. -/
structure Envs (env env' : Env) : Prop where
  eq : env' = env.renumber ρ.line
  known : env.AllSlots ρ.KnownSlot

/-- Two results that end in the same way, up to line numbers; or both have spent their steps. -/
inductive Results {ε α : Type} (E : ε → ε → Prop) (A : α → α → Prop) :
    Result ε α → Result ε α → Prop
  | done {a a' : α} {s t : State} (ha : A a a') (hs : s.Related ρ.Envs t) :
      Results E A (.done a s) (.done a' t)
  | stop {e e' : ε} {s t : State} (he : E e e') (hs : s.Related ρ.Envs t) :
      Results E A (.stop e s) (.stop e' t)
  | spent : Results E A .spent .spent

/-- With new line numbers in the state, the second action does what the first one does. -/
def Follows {ε α : Type} (E : ε → ε → Prop) (A : α → α → Prop) (x y : Action ε α) : Prop :=
  ∀ s t, s.Related ρ.Envs t → ρ.Results E A (x s) (y t)

variable {ρ} {ε α β : Type} {E : ε → ε → Prop} {A : α → α → Prop} {B : β → β → Prop}

/-- A value that is no function is the same with new line numbers. -/
theorem values_refl {v : Value} (hv : v.Known fun _ => False) : ρ.Values v v :=
  ⟨(Value.renumber_eq_self ρ.line hv).symm, fun decl h => (hv decl h).elim⟩

theorem valueLists_refl {vs : List Value} (hvs : ∀ v ∈ vs, v.Known fun _ => False) :
    ρ.ValueLists vs vs := by
  refine ⟨?_, fun v hv => (values_refl (hvs v hv)).known⟩
  exact ((List.map_congr_left fun v hv => Value.renumber_eq_self ρ.line (hvs v hv)).trans
    (List.map_id vs)).symm

/-- Comparing two values gives the same answer with new line numbers. -/
theorem Values.equal {v w v' w' : Value} (hv : ρ.Values v v') (hw : ρ.Values w w') :
    v'.equal w' = v.equal w := by
  obtain ⟨rfl, hvknown⟩ := hv
  obtain ⟨rfl, hwknown⟩ := hw
  -- Lines are in functions only, and two functions are compared as the renumbering says.
  cases v with
  | fn a =>
    cases w with
    | fn b => exact ρ.equal (hvknown a rfl) (hwknown b rfl)
    | _ => rfl
  | _ => cases w <;> rfl

theorem knownSlot_some {v : Value} (hv : v.Known ρ.known) (ty : Option Ty) (mutable : Bool) :
    ρ.KnownSlot ⟨ty, some v, mutable⟩ := by
  intro w hw
  obtain rfl := Option.some.inj hw
  exact hv

theorem knownSlot_none (ty : Option Ty) (mutable : Bool) : ρ.KnownSlot ⟨ty, none, mutable⟩ :=
  fun v hv => absurd hv (Option.not_mem_none v)

/-! ### Actions -/

theorem Results.mapAfter {r r' : Result ε α} (hr : ρ.Results E A r r') {f g : State → State}
    (hfg : ∀ s t, s.Related ρ.Envs t → (f s).Related ρ.Envs (g t)) :
    ρ.Results E A (r.mapAfter f) (r'.mapAfter g) := by
  cases hr with
  | done ha hs => exact .done ha (hfg _ _ hs)
  | stop he hs => exact .stop he (hfg _ _ hs)
  | spent => exact .spent

theorem follows_spent : ρ.Follows E A .spent .spent :=
  fun _ _ _ => .spent

theorem follows_pure {a a' : α} (ha : A a a') : ρ.Follows E A (pure a) (pure a') :=
  fun _ _ h => .done ha h

theorem follows_stop {e e' : ε} (he : E e e') : ρ.Follows E A (.stop e) (.stop e') :=
  fun _ _ h => .stop he h

theorem Follows.bind {x y : Action ε α} {f g : α → Action ε β} (hx : ρ.Follows E A x y)
    (hf : ∀ a a', A a a' → ρ.Follows E B (f a) (g a')) : ρ.Follows E B (x >>= f) (y >>= g) := by
  intro s t h
  have hr := hx s t h
  rw [Action.bind_apply, Action.bind_apply]
  cases hs : x s <;> cases ht : y t <;> rw [hs, ht] at hr <;> cases hr
  case done.done ha h' => exact hf _ _ ha _ _ h'
  case stop.stop he h' => exact .stop he h'
  case spent.spent => exact .spent

theorem follows_ofExcept (line : Nat) {x y : Except Cause α} (h : EndAlike Eq A x y) :
    ρ.Follows ρ.Faults A (.ofExcept line x) (.ofExcept (ρ.line line) y) := by
  intro s t hst
  cases h with
  | ok ha => exact .done ha hst
  | error he =>
    subst he
    exact .stop rfl hst

theorem Follows.asStmt {x y : Action Fault α} (hx : ρ.Follows ρ.Faults A x y) :
    ρ.Follows ρ.Interrupts A x.asStmt y.asStmt := by
  intro s t h
  have hr := hx s t h
  unfold Action.asStmt
  cases hs : x s <;> cases ht : y t <;> rw [hs, ht] at hr <;> cases hr
  case done.done ha h' => exact .done ha h'
  case stop.stop he h' => exact .stop (.fault he) h'
  case spent.spent => exact .spent

theorem follows_checked (line : Nat) {f g : Nat → Except Cause Unit} (hfg : f = g) :
    ρ.Follows ρ.Faults Eq (.checked line f) (.checked (ρ.line line) g) := by
  subst hfg
  intro s t h
  unfold Action.checked
  rw [h.callDepth]
  exact follows_ofExcept line (.refl fun _ _ => rfl) s t h

theorem follows_onConsole (line : Nat) {f : Console → Except Cause α × Console}
    (hf : ∀ console a, (f console).1 = .ok a → A a a) :
    ρ.Follows ρ.Faults A (.onConsole line f) (.onConsole (ρ.line line) f) := by
  intro s t h
  unfold Action.onConsole
  rw [h.console]
  have hvalue := hf s.console
  split
  · rename_i hout
    rw [hout] at hvalue
    exact .done (hvalue _ rfl) ⟨h.env, rfl, h.callDepth, h.displayed⟩
  · exact .stop rfl ⟨h.env, rfl, h.callDepth, h.displayed⟩

theorem follows_readLine (line : Nat) :
    ρ.Follows ρ.Faults Eq (.readLine line) (.readLine (ρ.line line)) :=
  follows_onConsole line fun _ _ _ => rfl

theorem follows_display (line : Nat) (text : String) :
    ρ.Follows ρ.Faults Eq (.display line text) (.display (ρ.line line) text) := by
  intro s t h
  have hshown : State.Related ρ.Envs { s with displayed := true } { t with displayed := true } :=
    ⟨h.env, h.console, h.callDepth, rfl⟩
  exact follows_onConsole line (fun _ _ _ => rfl) _ _ hshown

theorem follows_onEnv (line : Nat) {f g : Env → Except Cause Env}
    (hfg : ∀ e e', ρ.Envs e e' → EndAlike Eq ρ.Envs (f e) (g e')) :
    ρ.Follows ρ.Faults Eq (.onEnv line f) (.onEnv (ρ.line line) g) := by
  intro s t h
  have hout := hfg s.env t.env h.env
  unfold Action.onEnv
  cases hs : f s.env <;> cases ht : g t.env <;> rw [hs, ht] at hout <;> cases hout
  case ok.ok henv => exact .done rfl ⟨henv, h.console, h.callDepth, h.displayed⟩
  case error.error hc =>
    subst hc
    exact .stop rfl h

theorem follows_getVar (name : Token) :
    ρ.Follows ρ.Faults ρ.Values (.getVar name) (.getVar (name.renumber ρ.line)) := by
  intro s t h
  obtain ⟨henv, hknown⟩ := h.env
  have hget : EndAlike Eq ρ.Values (s.env.get name.lexeme) (t.env.get name.lexeme) := by
    rw [henv, Env.get_renumber]
    cases hv : s.env.get name.lexeme with
    | error c => exact .error rfl
    | ok v =>
      refine .ok ⟨rfl, ?_⟩
      unfold Env.get Env.lookup? at hv
      split at hv
      · rename_i hfound
        cases hv
        split at hfound
        · exact hknown _ _ _ hfound _ rfl
        · cases hfound
      · cases hv
      · cases hv
  exact follows_ofExcept name.line hget s t h

theorem follows_assign (name : Token) {v w : Value} (hv : ρ.Values v w) :
    ρ.Follows ρ.Faults Eq (.assign name v) (.assign (name.renumber ρ.line) w) := by
  refine follows_onEnv name.line fun e e' he => ?_
  obtain ⟨rfl, -⟩ := hv
  obtain ⟨rfl, heknown⟩ := he
  show EndAlike Eq ρ.Envs (e.assign name.lexeme v) ((e.renumber ρ.line).assign name.lexeme _)
  rw [Env.assign_renumber]
  cases hout : e.assign name.lexeme v with
  | error c => exact .error rfl
  | ok env =>
    refine .ok ⟨rfl, ?_⟩
    -- A variable that can be assigned has a type, so no function is ever assigned.
    obtain ⟨hfound, -, -, hty⟩ := Env.write_of_assign hout
    exact heknown.setValue hfound (knownSlot_some (Value.known_of_ty hty) _ _)

theorem follows_declare (name : Token) {slot : Slot} (hslot : ρ.KnownSlot slot) :
    ρ.Follows ρ.Faults Eq (.declare name slot)
      (.declare (name.renumber ρ.line) (slot.renumber ρ.line)) := by
  refine follows_onEnv name.line fun e e' he => ?_
  obtain ⟨rfl, heknown⟩ := he
  show EndAlike Eq ρ.Envs (e.declare name.lexeme slot) ((e.renumber ρ.line).declare name.lexeme _)
  rw [Env.declare_renumber]
  unfold Env.declare
  by_cases hfound : ((e.slotsAt e.current).find? name.lexeme).isSome
  · rw [if_pos hfound]
    exact .error rfl
  · rw [if_neg hfound]
    exact .ok ⟨rfl, heknown.cons _ _ hslot⟩

theorem follows_assignAll {targets : List (Token × Value)}
    (hknown : ∀ target ∈ targets, target.2.Known ρ.known) :
    ρ.Follows ρ.Faults Eq (.assignAll targets)
      (.assignAll (targets.map (Prod.map (Token.renumber ρ.line) (Value.renumber ρ.line)))) := by
  induction targets with
  | nil => exact follows_pure rfl
  | cons target rest ih =>
    obtain ⟨hv, hrest⟩ := List.forall_mem_cons.mp hknown
    exact (follows_assign target.1 ⟨rfl, hv⟩).bind fun _ _ _ => ih hrest

theorem Follows.inScope {x y : Action ε α} (hx : ρ.Follows E A x y) (parent : ScopeId) :
    ρ.Follows E A (.inScope parent x) (.inScope parent y) := by
  intro s t h
  have hcurrent : t.env.current = s.env.current := by rw [h.env.eq, Env.current_renumber]
  -- The new scope has no variables, so there is nothing in it to be known.
  have hinner : State.Related ρ.Envs { s with env := s.env.push parent }
      { t with env := t.env.push parent } := by
    refine ⟨⟨?_, h.env.known.push parent⟩, h.console, h.callDepth, h.displayed⟩
    rw [← Env.push_renumber, ← h.env.eq]
  refine (hx _ _ hinner).mapAfter fun s' t' h' => ?_
  refine ⟨⟨?_, h'.env.known.pop _⟩, h'.console, h'.callDepth, h'.displayed⟩
  rw [hcurrent, ← Env.pop_renumber, ← h'.env.eq]

theorem Follows.nested {x y : Action ε α} (hx : ρ.Follows E A x y) :
    ρ.Follows E A x.nested y.nested := by
  intro s t h
  have hcurrent : t.env.current = s.env.current := by rw [h.env.eq, Env.current_renumber]
  unfold Action.nested
  rw [hcurrent]
  exact hx.inScope _ s t h

theorem Follows.called {x y : Action ε α} (hx : ρ.Follows E A x y) :
    ρ.Follows E A x.called y.called := by
  intro s t h
  have hdeeper : State.Related ρ.Envs { s with callDepth := s.callDepth + 1 }
      { t with callDepth := t.callDepth + 1 } :=
    ⟨h.env, h.console, congrArg (· + 1) h.callDepth, h.displayed⟩
  refine (hx.inScope globalScope _ _ hdeeper).mapAfter fun s' t' h' => ?_
  exact ⟨h'.env, h'.console, congrArg (· - 1) h'.callDepth, h'.displayed⟩

theorem Follows.settle {ε' : Type} {E' : ε' → ε' → Prop} {x y : Action ε α}
    (hx : ρ.Follows E A x y) {f g : Except ε α → Except ε' β}
    (hfg : ∀ o o', EndAlike E A o o' → EndAlike E' B (f o) (g o')) :
    ρ.Follows E' B (x.settle f) (y.settle g) := by
  intro s t h
  have hr := hx s t h
  unfold Action.settle
  cases hs : x s <;> cases ht : y t <;> rw [hs, ht] at hr <;> cases hr
  case done.done a s' a' t' ha h' =>
    have hout := hfg _ _ (.ok ha)
    cases hf : f (.ok a) <;> cases hg : g (.ok a') <;> rw [hf, hg] at hout <;> cases hout
    case ok.ok hb => simp only [hf, hg]; exact .done hb h'
    case error.error he => simp only [hf, hg]; exact .stop he h'
  case stop.stop e s' e' t' he h' =>
    have hout := hfg _ _ (.error he)
    cases hf : f (.error e) <;> cases hg : g (.error e') <;> rw [hf, hg] at hout <;> cases hout
    case ok.ok hb => simp only [hf, hg]; exact .done hb h'
    case error.error he => simp only [hf, hg]; exact .stop he h'
  case spent.spent => exact .spent

/-! ### What the rules use -/

theorem follows_bindParams {bindings : List (Param × Value)}
    (hknown : ∀ b ∈ bindings, b.2.Known ρ.known) :
    ρ.Follows ρ.Faults Eq (Eval.bindParams bindings) (Eval.bindParams
      (bindings.map (Prod.map (Param.renumber ρ.line) (Value.renumber ρ.line)))) := by
  induction bindings with
  | nil => exact follows_pure rfl
  | cons b rest ih =>
    obtain ⟨hv, hrest⟩ := List.forall_mem_cons.mp hknown
    have hdeclare := follows_declare b.1.name (knownSlot_some hv (some b.1.ty) true)
    exact hdeclare.bind fun _ _ _ => ih hrest

theorem endAlike_result {decl : FunDecl} {o o' : Except Interrupt Unit}
    (ho : EndAlike ρ.Interrupts Eq o o') :
    EndAlike ρ.Faults ρ.Values (decl.result o) ((decl.renumber ρ.line).result o') := by
  have hnil : ρ.Values .nil .nil := values_refl fun _ hv => nomatch hv
  cases ho with
  | ok _ =>
    simp only [FunDecl.result, FunDecl.returnTy_renumber, FunDecl.name_renumber]
    cases decl.returnTy with
    | none => exact .ok hnil
    | some ty => exact .error rfl
  | error hi =>
    cases hi with
    | fault he => exact .error he
    | bare line =>
      simp only [FunDecl.result, FunDecl.returnTy_renumber, FunDecl.name_renumber]
      cases decl.returnTy with
      | none => exact .ok hnil
      | some ty => exact .error rfl
    | @returned v w hv line =>
      obtain ⟨rfl, hknown⟩ := hv
      simp only [FunDecl.result, FunDecl.returnTy_renumber, FunDecl.name_renumber,
        Value.ty?_renumber, Value.tag_renumber]
      cases decl.returnTy with
      | none => exact .error rfl
      | some ty =>
        by_cases hty : v.ty? = some ty
        · simp only [if_pos hty]
          exact .ok ⟨rfl, hknown⟩
        · simp only [if_neg hty]
          exact .error rfl

theorem endAlike_checkInit {v w : Value} (hv : ρ.Values v w) (ty : Ty) :
    EndAlike Eq ρ.Values (Eval.checkInit ty v) (Eval.checkInit ty w) := by
  obtain ⟨rfl, hknown⟩ := hv
  simp only [Eval.checkInit, Value.ty?_renumber, Value.quoted_renumber, Value.tag_renumber]
  by_cases hty : v.ty? = some ty
  · rw [if_pos hty, if_pos hty]
    exact .ok ⟨rfl, hknown⟩
  · rw [if_neg hty, if_neg hty]
    exact .error rfl

theorem endAlike_truth {v w : Value} (hv : ρ.Values v w) :
    EndAlike Eq Eq (Eval.truth v) (Eval.truth w) := by
  obtain ⟨rfl, -⟩ := hv
  have htruth : Eval.truth (v.renumber ρ.line) = Eval.truth v := by
    simp only [Eval.truth, Value.truth?_renumber, Value.tag_renumber]
  rw [htruth]
  exact .refl fun _ _ => rfl

theorem known_of_entries {count : Nat} {text : String} {vs : List Value}
    (h : Eval.entries count text = .ok vs) : ∀ v ∈ vs, v.Known fun _ => False := by
  simp only [Eval.entries] at h
  split at h
  · cases h
  · split at h
    · cases h
    · cases h
      exact fun v hv => Entry.known_of_mem_values hv

theorem follows_accept {names : List Token} (hnames : names ≠ []) :
    ρ.Follows ρ.Faults Eq (Eval.accept names)
      (Eval.accept (names.map (Token.renumber ρ.line))) := by
  -- Without names the report would be on line 0 in both runs, whatever the new line numbers are.
  obtain ⟨name, rest, rfl⟩ := List.exists_cons_of_ne_nil hnames
  unfold Eval.accept
  refine (follows_readLine name.line).bind fun text _ htext => ?_
  subst htext
  rw [List.length_map]
  have hentries : EndAlike Eq ρ.ValueLists (Eval.entries (name :: rest).length text)
      (Eval.entries (name :: rest).length text) :=
    .refl fun vs hvs => valueLists_refl (known_of_entries hvs)
  refine (follows_ofExcept name.line hentries).bind fun vs ws hvs => ?_
  obtain ⟨rfl, hknown⟩ := hvs
  rw [List.zip_map]
  refine follows_assignAll fun target htarget => ?_
  exact hknown _ (List.of_mem_zip htarget).2

/-! ### The rules -/

open Sugod.Eval

variable (ρ)

/-- With `n` steps, evaluation follows the new line numbers. -/
structure FollowsEval (n : Nat) : Prop where
  expr : ∀ {e}, e.Regular ρ.known →
    ρ.Follows ρ.Faults ρ.Values (expr n e) (expr n (e.renumber ρ.line))
  exprs : ∀ {es}, (∀ e ∈ es, e.Regular ρ.known) →
    ρ.Follows ρ.Faults ρ.ValueLists (exprs n es) (exprs n (es.map (Expr.renumber ρ.line)))
  call : ∀ {decl args args'} line, ρ.known decl → ρ.ValueLists args args' →
    ρ.Follows ρ.Faults ρ.Values (call n decl args line)
      (call n (decl.renumber ρ.line) args' (ρ.line line))
  cond : ∀ {e}, e.Regular ρ.known →
    ρ.Follows ρ.Faults Eq (cond n e) (cond n (e.renumber ρ.line))
  stmt : ∀ {inFn s}, s.Regular ρ.known inFn →
    ρ.Follows ρ.Interrupts Eq (stmt n s) (stmt n (s.renumber ρ.line))
  stmts : ∀ {inFn ss}, (∀ s ∈ ss, s.Regular ρ.known inFn) →
    ρ.Follows ρ.Interrupts Eq (stmts n ss) (stmts n (ss.map (Stmt.renumber ρ.line)))
  branches : ∀ {inFn bs otherwise}, (∀ b ∈ bs, b.Regular ρ.known inFn) →
    (∀ body ∈ otherwise, ∀ s ∈ body, s.Regular ρ.known inFn) →
    ρ.Follows ρ.Interrupts Eq (branches n bs otherwise)
      (branches n (bs.map (Branch.renumber ρ.line))
        (otherwise.map (List.map (Stmt.renumber ρ.line))))
  loop : ∀ {inFn c body step}, c.Regular ρ.known → (∀ s ∈ body, s.Regular ρ.known inFn) →
    (∀ e ∈ step, e.Regular ρ.known) →
    ρ.Follows ρ.Interrupts Eq (loop n c body step)
      (loop n (c.renumber ρ.line) (body.map (Stmt.renumber ρ.line))
        (step.map (Expr.renumber ρ.line)))
  increment : ∀ {step}, (∀ e ∈ step, e.Regular ρ.known) →
    ρ.Follows ρ.Interrupts Eq (increment n step)
      (increment n (step.map (Expr.renumber ρ.line)))

section Step

variable {ρ} {n : Nat} {inFn : Bool} (ih : ρ.FollowsEval n)

include ih

theorem exprStep_follows {e : Expr} (he : e.Regular ρ.known) :
    ρ.Follows ρ.Faults ρ.Values (expr (n + 1) e) (expr (n + 1) (e.renumber ρ.line)) := by
  cases he with
  | @literal v line hv =>
    simp only [Expr.renumber, Eval.expr]
    exact follows_pure ⟨rfl, hv⟩
  | var name =>
    simp only [Expr.renumber, Eval.expr]
    exact follows_getVar name
  | @assign name value hvalue =>
    simp only [Expr.renumber, Eval.expr]
    refine (ih.expr hvalue).bind fun v w hv => ?_
    exact (follows_assign name hv).bind fun _ _ _ => follows_pure hv
  | @unary op operand hoperand =>
    simp only [Expr.renumber, Eval.expr]
    refine (ih.expr hoperand).bind fun v w hv => follows_ofExcept op.line ?_
    rw [hv.eq, Operator.unary_renumber]
    exact .refl fun u hu => values_refl (Operator.known_of_unary hu)
  | @binary left op right hleft hright =>
    simp only [Expr.renumber, Eval.expr]
    refine (ih.expr hleft).bind fun l l' hl => ?_
    refine (ih.expr hright).bind fun r r' hr => follows_ofExcept op.line ?_
    -- Here lines could be seen, by comparing functions.
    have hequal := hl.equal hr
    rw [hl.eq, hr.eq] at hequal ⊢
    rw [Operator.binary_renumber op hequal]
    exact .refl fun u hu => values_refl (Operator.known_of_binary hu)
  | @logical left op right hleft hright =>
    simp only [Expr.renumber, Eval.expr]
    refine (ih.expr hleft).bind fun l l' hl => ?_
    rw [hl.eq, Value.truth?_renumber]
    cases l.truth? with
    | none =>
      rw [Value.tag_renumber]
      exact follows_stop rfl
    | some b =>
      have hsettles : Operator.settles (op.renumber ρ.line) b = Operator.settles op b := rfl
      simp only [hsettles]
      by_cases hb : Operator.settles op b = true
      · rw [if_pos hb, if_pos hb]
        exact follows_pure ⟨rfl, hl.known⟩
      · rw [if_neg hb, if_neg hb]
        exact ih.expr hright
  | @grouping inner hinner =>
    simp only [Expr.renumber, Eval.expr]
    exact ih.expr hinner
  | @call callee paren args hcallee hargs =>
    simp only [Expr.renumber, exprsRenumber_eq_map, Eval.expr]
    refine (ih.expr hcallee).bind fun c c' hc => ?_
    refine (ih.exprs hargs).bind fun vs ws hvs => ?_
    obtain ⟨rfl, hknown⟩ := hc
    cases c with
    | fn decl => exact ih.call paren.line (hknown decl rfl) hvs
    | builtin b =>
      show ρ.Follows _ _ (.onConsole paren.line (b.call vs)) (.onConsole _ (b.call ws))
      have hcall : b.call ws = b.call vs := by
        funext console
        rw [hvs.eq, Builtin.call_renumber]
      rw [hcall]
      exact follows_onConsole paren.line fun _ _ hv => values_refl (Builtin.known_of_call hv)
    | _ => exact follows_stop rfl

theorem exprsStep_follows {es : List Expr} (hes : ∀ e ∈ es, e.Regular ρ.known) :
    ρ.Follows ρ.Faults ρ.ValueLists (exprs (n + 1) es)
      (exprs (n + 1) (es.map (Expr.renumber ρ.line))) := by
  cases es with
  | nil =>
    rw [List.map_nil, Eval.exprs]
    exact follows_pure ⟨rfl, List.forall_mem_nil _⟩
  | cons e es =>
    obtain ⟨he, hes⟩ := List.forall_mem_cons.mp hes
    rw [List.map_cons, Eval.exprs, Eval.exprs]
    refine (ih.expr he).bind fun v w hv => ?_
    refine (ih.exprs hes).bind fun vs ws hvs => follows_pure ⟨?_, ?_⟩
    · rw [hv.eq, hvs.eq, List.map_cons]
    · exact List.forall_mem_cons.mpr ⟨hv.known, hvs.known⟩

theorem callStep_follows {decl : FunDecl} {args args' : List Value} (line : Nat)
    (hdecl : ρ.known decl) (hargs : ρ.ValueLists args args') :
    ρ.Follows ρ.Faults ρ.Values (call (n + 1) decl args line)
      (call (n + 1) (decl.renumber ρ.line) args' (ρ.line line)) := by
  obtain ⟨rfl, hknown⟩ := hargs
  have hcheck : decl.check args =
      (decl.renumber ρ.line).check (args.map (Value.renumber ρ.line)) := by
    funext callDepth
    rw [FunDecl.check_renumber]
  have hbindings : ∀ b ∈ decl.params.zip args, b.2.Known ρ.known :=
    fun b hb => hknown _ (List.of_mem_zip hb).2
  rw [Eval.call, Eval.call, FunDecl.params_renumber, FunDecl.body_renumber, List.zip_map]
  refine (follows_checked line hcheck).bind fun _ _ _ => ?_
  -- A known function has a body in which all functions are known.
  have hbody := (follows_bindParams hbindings).asStmt.bind fun _ _ _ => ih.stmts (ρ.regular hdecl)
  exact hbody.called.settle fun o o' ho => endAlike_result ho

theorem condStep_follows {e : Expr} (he : e.Regular ρ.known) :
    ρ.Follows ρ.Faults Eq (cond (n + 1) e) (cond (n + 1) (e.renumber ρ.line)) := by
  rw [Eval.cond, Eval.cond, Expr.line_renumber]
  exact (ih.expr he).bind fun v w hv => follows_ofExcept e.line (endAlike_truth hv)

theorem stmtStep_follows {s : Stmt} (hs : s.Regular ρ.known inFn) :
    ρ.Follows ρ.Interrupts Eq (stmt (n + 1) s) (stmt (n + 1) (s.renumber ρ.line)) := by
  cases hs with
  | @display e he =>
    simp only [Stmt.renumber, Eval.stmt, Expr.line_renumber]
    refine Follows.asStmt ((ih.expr he).bind fun v w hv => ?_)
    rw [hv.eq, Value.text_renumber]
    exact follows_display e.line v.text
  | expr he =>
    simp only [Stmt.renumber, Eval.stmt]
    exact Follows.asStmt ((ih.expr he).bind fun _ _ _ => follows_pure rfl)
  | accept hnames =>
    simp only [Stmt.renumber, Eval.stmt]
    exact (follows_accept hnames).asStmt
  | @declare name ty init mutable hinit =>
    cases init with
    | none =>
      simp only [Stmt.renumber, exprRenumber?_eq_map, Option.map_none, Eval.stmt]
      exact (follows_declare name (knownSlot_none _ _)).asStmt
    | some e =>
      simp only [Stmt.renumber, exprRenumber?_eq_map, Option.map_some, Eval.stmt]
      refine Follows.asStmt ((ih.expr (hinit e rfl)).bind fun v w hv => ?_)
      refine (follows_ofExcept name.line (endAlike_checkInit hv ty)).bind fun u u' hu => ?_
      obtain ⟨rfl, hknown⟩ := hu
      exact follows_declare name (knownSlot_some hknown _ _)
  | block hbody =>
    simp only [Stmt.renumber, stmtsRenumber_eq_map, Eval.stmt]
    exact (ih.stmts hbody).nested
  | @choose first others otherwise hconds hbodies hotherwise =>
    simp only [Stmt.renumber, branchesRenumber_eq_map, bodyRenumber?_eq_map, Eval.stmt]
    exact ih.branches (fun b hb => ⟨hconds b hb, hbodies b hb⟩) hotherwise
  | whileLoop hcond hbody =>
    simp only [Stmt.renumber, stmtsRenumber_eq_map, Eval.stmt]
    exact ih.loop hcond hbody fun e he => absurd he (Option.not_mem_none e)
  | @forLoop init cond increment body hinit hcond hincrement hbody =>
    simp only [Stmt.renumber, stmtsRenumber_eq_map, Eval.stmt]
    refine Follows.nested ((ih.stmt hinit).bind fun _ _ _ => ?_)
    have hstep : ∀ e ∈ some increment, e.Regular ρ.known := by
      rintro e ⟨⟩
      exact hincrement
    exact ih.loop hcond hbody hstep
  | @ret keyword value inside hvalue =>
    cases value with
    | none =>
      simp only [Stmt.renumber, exprRenumber?_eq_map, Option.map_none, Eval.stmt]
      exact follows_stop (.bare keyword.line)
    | some e =>
      simp only [Stmt.renumber, exprRenumber?_eq_map, Option.map_some, Eval.stmt]
      refine (ih.expr (hvalue e rfl)).asStmt.bind fun v w hv => ?_
      exact follows_stop (.returned hv keyword.line)
  | @fn decl hdecl =>
    simp only [Stmt.renumber, Eval.stmt, FunDecl.name_renumber]
    have hknown : (Value.fn decl).Known ρ.known := by
      rintro decl' ⟨⟩
      exact hdecl
    exact (follows_declare decl.name (knownSlot_some hknown none false)).asStmt

theorem stmtsStep_follows {ss : List Stmt} (hss : ∀ s ∈ ss, s.Regular ρ.known inFn) :
    ρ.Follows ρ.Interrupts Eq (stmts (n + 1) ss)
      (stmts (n + 1) (ss.map (Stmt.renumber ρ.line))) := by
  cases ss with
  | nil =>
    rw [List.map_nil, Eval.stmts]
    exact follows_pure rfl
  | cons s ss =>
    obtain ⟨hs, hss⟩ := List.forall_mem_cons.mp hss
    rw [List.map_cons, Eval.stmts, Eval.stmts]
    exact (ih.stmt hs).bind fun _ _ _ => ih.stmts hss

theorem branchesStep_follows {bs : List Branch} {otherwise : Option (List Stmt)}
    (hbs : ∀ b ∈ bs, b.Regular ρ.known inFn)
    (hotherwise : ∀ body ∈ otherwise, ∀ s ∈ body, s.Regular ρ.known inFn) :
    ρ.Follows ρ.Interrupts Eq (branches (n + 1) bs otherwise)
      (branches (n + 1) (bs.map (Branch.renumber ρ.line))
        (otherwise.map (List.map (Stmt.renumber ρ.line)))) := by
  cases bs with
  | nil =>
    cases otherwise with
    | none =>
      rw [List.map_nil, Option.map_none, Eval.branches]
      exact follows_pure rfl
    | some body =>
      rw [List.map_nil, Option.map_some, Eval.branches, Eval.branches]
      exact (ih.stmts (hotherwise body rfl)).nested
  | cons b bs =>
    obtain ⟨hb, hbs⟩ := List.forall_mem_cons.mp hbs
    rw [List.map_cons, Eval.branches, Eval.branches, Branch.cond_renumber, Branch.body_renumber]
    refine (ih.cond hb.cond).asStmt.bind fun holds _ hholds => ?_
    subst hholds
    cases holds with
    | true => exact (ih.stmts hb.body).nested
    | false => exact ih.branches hbs hotherwise

theorem loopStep_follows {c : Expr} {body : List Stmt} {step : Option Expr}
    (hc : c.Regular ρ.known) (hbody : ∀ s ∈ body, s.Regular ρ.known inFn)
    (hstep : ∀ e ∈ step, e.Regular ρ.known) :
    ρ.Follows ρ.Interrupts Eq (loop (n + 1) c body step)
      (loop (n + 1) (c.renumber ρ.line) (body.map (Stmt.renumber ρ.line))
        (step.map (Expr.renumber ρ.line))) := by
  rw [Eval.loop, Eval.loop]
  refine (ih.cond hc).asStmt.bind fun holds _ hholds => ?_
  subst hholds
  cases holds with
  | true =>
    refine (ih.stmts hbody).nested.bind fun _ _ _ => ?_
    exact (ih.increment hstep).bind fun _ _ _ => ih.loop hc hbody hstep
  | false => exact follows_pure rfl

theorem incrementStep_follows {step : Option Expr} (hstep : ∀ e ∈ step, e.Regular ρ.known) :
    ρ.Follows ρ.Interrupts Eq (increment (n + 1) step)
      (increment (n + 1) (step.map (Expr.renumber ρ.line))) := by
  cases step with
  | none =>
    rw [Option.map_none, Eval.increment]
    exact follows_pure rfl
  | some e =>
    rw [Option.map_some, Eval.increment, Eval.increment]
    exact Follows.asStmt ((ih.expr (hstep e rfl)).bind fun _ _ _ => follows_pure rfl)

end Step

/-- **Running does not depend on lines**, for every number of steps. -/
theorem followsEval (n : Nat) : ρ.FollowsEval n := by
  induction n with
  | zero =>
    constructor <;> intros
    case expr => rw [Eval.expr, Eval.expr]; exact follows_spent
    case exprs => rw [Eval.exprs, Eval.exprs]; exact follows_spent
    case call => rw [Eval.call, Eval.call]; exact follows_spent
    case cond => rw [Eval.cond, Eval.cond]; exact follows_spent
    case stmt => rw [Eval.stmt, Eval.stmt]; exact follows_spent
    case stmts => rw [Eval.stmts, Eval.stmts]; exact follows_spent
    case branches => rw [Eval.branches, Eval.branches]; exact follows_spent
    case loop => rw [Eval.loop, Eval.loop]; exact follows_spent
    case increment => rw [Eval.increment, Eval.increment]; exact follows_spent
  | succ n ih =>
    exact ⟨exprStep_follows ih, exprsStep_follows ih, callStep_follows ih, condStep_follows ih,
      stmtStep_follows ih, stmtsStep_follows ih, branchesStep_follows ih, loopStep_follows ih,
      incrementStep_follows ih⟩

end Renumbering

end Sugod
