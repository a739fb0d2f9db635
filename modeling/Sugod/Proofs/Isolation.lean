import Sugod.Proofs.Simulation

/-!
# Calls do not see the caller

The body of a function runs in a scope under the global one. Two calls of the same function from
different places therefore run side by side: what is below their scopes, the scopes of the two
callers, may differ in number, names, values and parents.

`Above under₁ under₂ h` relates the two environments while the bodies run. Each has the scopes of
its caller at the bottom, as they were at the start, and `h` scopes on top of them. The global
scopes and the scopes on top agree, up to the numbers that the latter have. The point is that no
parent on either side leads into the scopes of the caller (`Above.parent`).
-/

set_option autoImplicit false

namespace Sugod

/-- The numbers `i` and `j` mean the same scope above `a` and `b` scopes of two callers: the global
scope, or one at the same distance above them. -/
def Aligned (a b i j : Nat) : Prop :=
  (i = 0 ∧ j = 0) ∨ ∃ k, i = a + 1 + k ∧ j = b + 1 + k

namespace Aligned

variable {a b i j i' j' : Nat}

theorem global : Aligned a b globalScope globalScope :=
  .inl ⟨rfl, rfl⟩

theorem above (k : Nat) : Aligned a b (a + 1 + k) (b + 1 + k) :=
  .inr ⟨k, rfl, rfl⟩

theorem lt_iff (h : Aligned a b i j) (h' : Aligned a b i' j') : i < i' ↔ j < j' := by
  rcases h with h | ⟨k, h⟩ <;> rcases h' with h' | ⟨k', h'⟩ <;> omega

theorem eq_iff (h : Aligned a b i j) (h' : Aligned a b i' j') : i = i' ↔ j = j' := by
  have hlt := h.lt_iff h'
  have hgt := h'.lt_iff h
  omega

/-- Two scopes stand in the same order on both sides. -/
theorem order (h : Aligned a b i j) (h' : Aligned a b i' j') :
    (i < i' ∧ j < j') ∨ (i = i' ∧ j = j') ∨ (i' < i ∧ j' < j) := by
  have hlt := h.lt_iff h'
  have heq := h.eq_iff h'
  omega

end Aligned

namespace Env

/-- An environment that has the scopes `under` at the bottom, next to the global scope, and `h`
scopes on top of them. -/
structure StandsOn (under : Array Scope) (h : Nat) (env : Env) : Prop where
  size : env.locals.size = under.size + h
  under : ∀ i, i < under.size → env.locals[i]? = under[i]?

namespace StandsOn

variable {under : Array Scope} {h : Nat} {env : Env}

theorem depth (hs : StandsOn under h env) : env.depth = under.size + 1 + h := by
  show env.locals.size + 1 = _
  rw [hs.size]
  omega

/-- With nothing on top, the scopes are those at the bottom. -/
theorem locals_eq (hs : StandsOn under 0 env) : env.locals = under := by
  apply Array.ext_getElem?
  intro i
  by_cases hi : i < under.size
  · exact hs.under i hi
  · have hsize : env.locals.size ≤ i := by
      rw [hs.size]
      omega
    rw [Array.getElem?_eq_none hsize, Array.getElem?_eq_none (Nat.le_of_not_lt hi)]

theorem push (hs : StandsOn under h env) (p : ScopeId) : StandsOn under (h + 1) (env.push p) := by
  constructor
  · have hsize : (env.push p).locals.size = env.locals.size + 1 := Array.size_push _
    rw [hsize, hs.size]
    rfl
  · intro i hi
    have hne : i ≠ env.locals.size := by
      rw [hs.size]
      omega
    rw [← hs.under i hi]
    simp [Env.push, Array.getElem?_push, hne]

theorem pop (hs : StandsOn under (h + 1) env) (p : ScopeId) : StandsOn under h (env.pop p) := by
  constructor
  · have hsize : (env.pop p).locals.size = env.locals.size - 1 := Array.size_pop
    rw [hsize, hs.size]
    rfl
  · intro i hi
    have hlt : i + 1 < env.locals.size := by
      rw [hs.size]
      omega
    rw [getElem?_locals_pop p hlt]
    exact hs.under i hi

/-- Changing variables of the global scope or of a scope on top leaves the bottom alone. -/
theorem modifySlots (hs : StandsOn under h env) (g : Slots → Slots) {id : ScopeId}
    (hid : id = globalScope ∨ under.size < id) : StandsOn under h (env.modifySlots g id) := by
  constructor
  · have hdepth := depth_modifySlots env g id
    rw [← hs.size]
    exact Nat.succ.inj hdepth
  · intro i hi
    rw [← hs.under i hi]
    cases id with
    | zero => rfl
    | succ j =>
      have hne : j ≠ i := by
        rcases hid with hzero | hlt
        · cases hzero
        · exact Nat.ne_of_gt (Nat.lt_of_lt_of_le hi (Nat.le_of_lt_succ hlt))
      simp [Env.modifySlots, Array.getElem?_modify, hne]

end StandsOn

/-! ## Above the scopes of two callers -/

/-- Two environments that agree above the scopes of their callers. -/
structure Above (under₁ under₂ : Array Scope) (h : Nat) (e f : Env) : Prop where
  left : StandsOn under₁ h e
  right : StandsOn under₂ h f
  slots : ∀ i j, Aligned under₁.size under₂.size i j → (e.slotsAt i).Same (f.slotsAt j)
  parent : ∀ i j, Aligned under₁.size under₂.size i j →
    Option.Rel (Aligned under₁.size under₂.size) (e.parent? i) (f.parent? j)
  current : Aligned under₁.size under₂.size e.current f.current
  current_lt : e.current < e.depth

namespace Above

variable {under₁ under₂ : Array Scope} {h : Nat} {e f : Env}

theorem aligned_depth (ha : Above under₁ under₂ h e f) :
    Aligned under₁.size under₂.size e.depth f.depth := by
  rw [ha.left.depth, ha.right.depth]
  exact .above h

/-- From scopes that mean the same, a name is found in scopes that mean the same. -/
theorem resolveFrom (ha : Above under₁ under₂ h e f) (name : String) (i j : ScopeId)
    (hij : Aligned under₁.size under₂.size i j) :
    Option.Rel (Aligned under₁.size under₂.size) (e.resolveFrom name i)
      (f.resolveFrom name j) := by
  -- The chain of parents goes down on both sides at once, so induction on the left one will do.
  induction i using Nat.strongRecOn generalizing j with
  | ind i ih =>
    rw [resolveFrom_eq e, resolveFrom_eq f, ha.slots i j hij name]
    split
    · exact .some hij
    · have hparent := ha.parent i j hij
      cases hp : e.parent? i <;> cases hq : f.parent? j <;> rw [hp, hq] at hparent <;>
        cases hparent
      case none.none => exact .none
      case some.some p q hpq =>
        have hlt : p < i ↔ q < j := hpq.lt_iff hij
        by_cases hpi : p < i
        · simp only [hpi, hlt.mp hpi, if_true]
          exact ih p hpi q hpq
        · have hqj : ¬ q < j := fun hq => hpi (hlt.mpr hq)
          simp only [hpi, hqj, if_false]
          exact .none

theorem resolve (ha : Above under₁ under₂ h e f) (name : String) :
    Option.Rel (Aligned under₁.size under₂.size) (e.resolve name) (f.resolve name) :=
  ha.resolveFrom name _ _ ha.current

/-- The variables of scopes that mean the same can be changed in the same way. -/
theorem modifySlots (ha : Above under₁ under₂ h e f) {g : Slots → Slots}
    (hg : ∀ {a b : Slots}, a.Same b → (g a).Same (g b)) {i j : ScopeId}
    (hij : Aligned under₁.size under₂.size i j) (hi : i < e.depth) :
    Above under₁ under₂ h (e.modifySlots g i) (f.modifySlots g j) := by
  have hj : j < f.depth := (hij.lt_iff ha.aligned_depth).mp hi
  -- Scopes that mean the same are never among those of the callers.
  have hlow : (i = globalScope ∨ under₁.size < i) ∧ (j = globalScope ∨ under₂.size < j) := by
    rcases hij with ⟨rfl, rfl⟩ | ⟨k, rfl, rfl⟩
    · exact ⟨.inl rfl, .inl rfl⟩
    · exact ⟨.inr (by omega), .inr (by omega)⟩
  refine ⟨ha.left.modifySlots g hlow.1, ha.right.modifySlots g hlow.2, ?_, ?_, ?_, ?_⟩
  · intro i' j' hij'
    by_cases hi' : i' = i
    · obtain rfl := (hij'.eq_iff hij).mp hi'
      obtain rfl := hi'
      rw [slotsAt_modifySlots_self hi, slotsAt_modifySlots_self hj]
      exact hg (ha.slots _ _ hij)
    · have hj' : j' ≠ j := fun hj' => hi' ((hij'.eq_iff hij).mpr hj')
      rw [slotsAt_modifySlots_ne hi', slotsAt_modifySlots_ne hj']
      exact ha.slots i' j' hij'
  · intro i' j' hij'
    rw [parent?_modifySlots, parent?_modifySlots]
    exact ha.parent i' j' hij'
  · rw [current_modifySlots, current_modifySlots]
    exact ha.current
  · rw [current_modifySlots, depth_modifySlots]
    exact ha.current_lt

/-- Scopes under parents that mean the same are entered together. -/
theorem push (ha : Above under₁ under₂ h e f) {p q : ScopeId}
    (hpq : Aligned under₁.size under₂.size p q) :
    Above under₁ under₂ (h + 1) (e.push p) (f.push q) := by
  have hlt : (e.push p).current < (e.push p).depth := by
    rw [current_push, depth_push]
    exact Nat.lt_succ_self e.depth
  refine ⟨ha.left.push p, ha.right.push q, ?_, ?_, ha.aligned_depth, hlt⟩
  · intro i j hij
    rw [slotsAt_push, slotsAt_push]
    exact ha.slots i j hij
  · intro i j hij
    -- An older scope, the one that is entered, or none at all.
    rcases hij.order ha.aligned_depth with ⟨hi, hj⟩ | ⟨rfl, rfl⟩ | ⟨hi, hj⟩
    · rw [parent?_push_of_lt hi, parent?_push_of_lt hj]
      exact ha.parent i j hij
    · rw [parent?_push_depth, parent?_push_depth]
      exact .some hpq
    · rw [parent?_of_depth_le (by rw [depth_push]; exact hi),
        parent?_of_depth_le (by rw [depth_push]; exact hj)]
      exact .none

/-- Scopes are left together, for existing scopes that mean the same. -/
theorem pop (ha : Above under₁ under₂ (h + 1) e f) {p q : ScopeId}
    (hpq : Aligned under₁.size under₂.size p q) (hp : p < under₁.size + 1 + h) :
    Above under₁ under₂ h (e.pop p) (f.pop q) := by
  have left := ha.left.pop p
  have right := ha.right.pop q
  have hdepth : Aligned under₁.size under₂.size (e.pop p).depth (f.pop q).depth := by
    rw [left.depth, right.depth]
    exact .above h
  have he : e.depth = (e.pop p).depth + 1 := by rw [left.depth, ha.left.depth]; rfl
  have hf : f.depth = (f.pop q).depth + 1 := by rw [right.depth, ha.right.depth]; rfl
  -- A scope that is gone on the one side is gone on the other.
  have hscope : ∀ i j, Aligned under₁.size under₂.size i j →
      (i + 1 < e.depth ∧ j + 1 < f.depth) ∨ ((e.pop p).depth ≤ i ∧ (f.pop q).depth ≤ j) := by
    intro i j hij
    have horder := hij.order hdepth
    omega
  refine ⟨left, right, ?_, ?_, hpq, by rw [left.depth]; exact hp⟩
  · intro i j hij
    rcases hscope i j hij with ⟨hi, hj⟩ | ⟨hi, hj⟩
    · rw [slotsAt_pop_of_lt p hi, slotsAt_pop_of_lt q hj]
      exact ha.slots i j hij
    · rw [slotsAt_of_depth_le hi, slotsAt_of_depth_le hj]
      exact fun _ => rfl
  · intro i j hij
    rcases hscope i j hij with ⟨hi, hj⟩ | ⟨hi, hj⟩
    · rw [parent?_pop_of_lt p hi, parent?_pop_of_lt q hj]
      exact ha.parent i j hij
    · rw [parent?_of_depth_le hi, parent?_of_depth_le hj]
      exact .none

/-- **Evaluation keeps two environments in agreement above the scopes of their callers.** -/
theorem simulation (under₁ under₂ : Array Scope) : Simulation (Above under₁ under₂) where
  lookup ha name := lookup?_eq_of_resolve (ha.resolve name) ha.slots
  assign ha name v :=
    sameOutcome_assign (ha.resolve name) ha.slots
      fun _ _ hij hi => ha.modifySlots (fun hs => hs.setValue name v) hij hi
  declare ha name slot :=
    sameOutcome_declare (ha.slots _ _ ha.current)
      (ha.modifySlots (fun hs => hs.cons name slot) ha.current ha.current_lt)
  nest ha := ha.push ha.current
  call ha := ha.push .global
  leave ha ha' := ha'.pop ha.current (ha.left.depth ▸ ha.current_lt)

end Above

/-! ## A call from two places -/

/-- Environments with the same global variables. -/
def SameGlobals (e f : Env) : Prop :=
  e.globals.Same f.globals

/-- Environments `e` and `f` behind two calls that were made in `e₀` and `f₀`: the global variables
agree, and the other scopes are those of the callers. -/
structure Returned (e₀ f₀ e f : Env) : Prop where
  globals : e.SameGlobals f
  left : e.locals = e₀.locals
  right : f.locals = f₀.locals

/-- Nothing stands on the scopes of the callers before the calls enter scopes of their own. -/
theorem above_enter {e f : Env} (hg : e.SameGlobals f) :
    Above e.locals f.locals 1 (e.push globalScope) (f.push globalScope) := by
  -- Above the callers there is only the global scope yet; no other aligned numbers are in use.
  have hbase : Above e.locals f.locals 0 { e with current := globalScope }
      { f with current := globalScope } := by
    refine ⟨⟨rfl, fun _ _ => rfl⟩, ⟨rfl, fun _ _ => rfl⟩, ?_, ?_, .global, Nat.succ_pos _⟩
    · rintro i j (⟨rfl, rfl⟩ | ⟨k, rfl, rfl⟩)
      · exact hg
      · have he : slotsAt { e with current := globalScope } (e.locals.size + 1 + k) = [] :=
          slotsAt_of_depth_le (Nat.le_add_right _ k)
        have hf : slotsAt { f with current := globalScope } (f.locals.size + 1 + k) = [] :=
          slotsAt_of_depth_le (Nat.le_add_right _ k)
        rw [he, hf]
        exact fun _ => rfl
    · rintro i j (⟨rfl, rfl⟩ | ⟨k, rfl, rfl⟩)
      · exact .none
      · have he : parent? { e with current := globalScope } (e.locals.size + 1 + k) = none :=
          parent?_of_depth_le (Nat.le_add_right _ k)
        have hf : parent? { f with current := globalScope } (f.locals.size + 1 + k) = none :=
          parent?_of_depth_le (Nat.le_add_right _ k)
        rw [he, hf]
        exact .none
  exact hbase.push .global

/-- When the scopes of the calls have been left, nothing but the global variables remains. -/
theorem Above.returned {e₀ f₀ e f : Env} (ha : Above e₀.locals f₀.locals 1 e f) (p q : ScopeId) :
    Returned e₀ f₀ (e.pop p) (f.pop q) :=
  ⟨ha.slots _ _ .global, (ha.left.pop p).locals_eq, (ha.right.pop q).locals_eq⟩

end Env

/-- A call from two places ends in the same way and leaves the callers' scopes alone. -/
theorem Eval.call_returned (n : Nat) (decl : FunDecl) (args : List Value) (line : Nat)
    {s t : State} (h : s.Related Env.SameGlobals t) :
    (Eval.call n decl args line s).Related (Env.Returned s.env t.env)
      (Eval.call n decl args line t) := by
  cases n with
  | zero =>
    rw [Eval.call]
    exact .spent
  | succ n =>
    have hstart : s.Related (Env.Returned s.env t.env) t :=
      ⟨⟨h.env, rfl, rfl⟩, h.console, h.callDepth, h.displayed⟩
    rw [Eval.call, Action.bind_apply, Action.bind_apply]
    unfold Action.checked Action.ofExcept
    -- The check depends on the arguments and the number of calls, which are the same.
    rw [h.callDepth]
    cases hcheck : decl.check args s.callDepth with
    | error c => exact .stop _ hstart
    | ok _ =>
      have rules := (Env.Above.simulation s.env.locals t.env.locals).compositional
      have hbody := rules.bindStmt (rules.bindParams (FunDecl.ty_of_check hcheck))
        fun _ _ _ _ => (rules.holds n).stmts decl.body
      exact Action.related_settle decl.result
        (Action.related_called hbody h.console h.callDepth h.displayed (Env.above_enter h.env)
          fun _ _ ha => ha.returned s.env.current t.env.current)

/-- **A call sees nothing of its caller but the global variables, and changes nothing else.** Take
any two states that agree in the global variables, the console, the number of calls and whether
something was displayed. With any number of steps, a call in the one is related to the same call in
the other: it has a result in both or in neither, with the same value or the same fault, and the
states behind agree as before. In both, all scopes but the global one are what they were. -/
theorem call_isolated (n : Nat) (decl : FunDecl) (args : List Value) (line : Nat) (s t : State)
    (h : s.Related Env.SameGlobals t) :
    (Eval.call n decl args line s).Related Env.SameGlobals (Eval.call n decl args line t) ∧
    (∀ s', (Eval.call n decl args line s).after? = some s' → s'.env.locals = s.env.locals) ∧
    (∀ t', (Eval.call n decl args line t).after? = some t' → t'.env.locals = t.env.locals) := by
  have hcall := Eval.call_returned n decl args line h
  refine ⟨hcall.mono fun _ _ hr => hr.globals, ?_, ?_⟩
  · intro s' hs'
    obtain ⟨t', -, hrel⟩ := hcall.left hs'
    exact hrel.env.left
  · intro t' ht'
    obtain ⟨s', -, hrel⟩ := hcall.right ht'
    exact hrel.env.right

/-- A function that adds the names `x` and `g`. -/
def adder : FunDecl :=
  ⟨⟨.identifier "add", "add", 1⟩, [],
    [.ret ⟨.mark .iuli, "IULI", 2⟩
      (some (.binary (.var ⟨.identifier "x", "x", 2⟩) ⟨.mark .plus, "+", 2⟩
        (.var ⟨.identifier "g", "g", 2⟩)))],
    some .int⟩

/-- A state in a scope that has an `x` of its own, above two global variables. -/
def inside : State :=
  ⟨{ globals := [("g", ⟨some .int, some (.int 1), true⟩), ("k", ⟨some .int, none, true⟩)]
     locals := #[⟨[("x", ⟨some .int, some (.int 5), true⟩)], globalScope⟩]
     current := 1 }, {}, 0, false⟩

/-- A state in the global scope, with the same two variables in another order. -/
def outside : State :=
  ⟨{ globals := [("k", ⟨some .int, none, true⟩), ("g", ⟨some .int, some (.int 1), true⟩)] },
    {}, 0, false⟩

/-- The function does not find the `x` of its caller: called from inside of the scope it ends as it
does from outside. -/
theorem call_isolated_adder :
    inside.Related Env.SameGlobals outside ∧
    (Eval.call 9 adder [] 4 inside).Related Env.SameGlobals (Eval.call 9 adder [] 4 outside) ∧
    (∀ s', (Eval.call 9 adder [] 4 inside).after? = some s' →
      s'.env.locals = inside.env.locals) := by
  have hglobals : inside.env.SameGlobals outside.env := by
    intro name
    by_cases hg : name = "g"
    · subst hg
      rfl
    · by_cases hk : name = "k"
      · subst hk
        rfl
      · simp [inside, outside, Slots.find?_cons, hg, hk]
  have hrel : inside.Related Env.SameGlobals outside := ⟨hglobals, rfl, rfl, rfl⟩
  have hcall := call_isolated 9 adder [] 4 inside outside hrel
  exact ⟨hrel, hcall.1, hcall.2.1⟩

end Sugod
