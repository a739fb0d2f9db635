import Sugod.Proofs.Simulation

/-!
# A scope in which nothing is declared

A part of a statement may run in a scope of its own or not: as long as it declares nothing there, no
one can tell. The main statement is `nested_eq_self`.

`Inserted b h e f` relates the two environments while the part runs. The environment `f` has one
scope more than `e`: the empty scope `b + 1`, right above scope `b` in which both runs began, with
`h` scopes on top of it. All scopes above it have numbers one larger than in `e`, and a parent that
is `b` in `e` may be `b + 1` in `f`. No name is found in the empty scope, so the search goes on in
scope `b`.
-/

set_option autoImplicit false

namespace Sugod

/-- The number that a scope has when scope `b + 1` is taken out. Whoever means scope `b + 1` means
scope `b` then. -/
def squeeze (b j : Nat) : Nat :=
  if j ≤ b then j else j - 1

section squeeze

variable {b i j : Nat}

theorem squeeze_of_le (h : j ≤ b) : squeeze b j = j :=
  if_pos h

theorem squeeze_of_lt (h : b < j) : squeeze b j = j - 1 :=
  if_neg (Nat.not_le_of_lt h)

/-- Apart from scope `b + 1`, a scope keeps its place among those with smaller numbers. -/
theorem squeeze_lt_squeeze (hij : i < j) (hj : j ≠ b + 1) : squeeze b i < squeeze b j := by
  unfold squeeze
  split <;> split <;> omega

theorem eq_of_squeeze_eq (hi : i ≠ b + 1) (hj : j ≠ b + 1) (h : squeeze b i = squeeze b j) :
    i = j := by
  rcases Nat.lt_trichotomy i j with hlt | heq | hlt
  · have := squeeze_lt_squeeze hlt hj
    omega
  · exact heq
  · have := squeeze_lt_squeeze hlt hi
    omega

end squeeze

namespace Env

/-- An environment is determined by the number of its scopes, the current one, and the variables and
the parent of each. -/
theorem ext_of_views {e f : Env} (hdepth : e.depth = f.depth) (hcurrent : e.current = f.current)
    (hslots : ∀ id, e.slotsAt id = f.slotsAt id) (hparent : ∀ id, e.parent? id = f.parent? id) :
    e = f := by
  have hlocals : e.locals = f.locals := by
    apply Array.ext_getElem?
    intro i
    have hslotsAt := hslots (i + 1)
    have hparentAt := hparent (i + 1)
    have hsize : e.locals.size = f.locals.size := Nat.succ.inj hdepth
    simp only [slotsAt, parent?] at hslotsAt hparentAt
    cases he : e.locals[i]? <;> cases hf : f.locals[i]? <;> rw [he, hf] at hslotsAt hparentAt <;>
      simp only [Option.map_some, Option.map_none, reduceCtorEq, Option.some.injEq] at hparentAt ⊢
    case some.some scope scope' =>
      obtain ⟨slots, parent⟩ := scope
      obtain ⟨slots', parent'⟩ := scope'
      exact congrArg₂ Scope.mk hslotsAt hparentAt
  have hglobals : e.globals = f.globals := hslots 0
  obtain ⟨globals, locals, current⟩ := e
  obtain ⟨globals', locals', current'⟩ := f
  simp only at hlocals hglobals hcurrent
  subst hlocals hglobals hcurrent
  rfl

/-- The environment `f` is `e` with an empty scope `b + 1` above scope `b`, under `h` further
scopes. -/
structure Inserted (b h : Nat) (e f : Env) : Prop where
  depth_left : e.depth = b + 1 + h
  depth_right : f.depth = b + 2 + h
  current_left : (b + h : Nat) = e.current
  current_right : (b + 1 + h : Nat) = f.current
  slots : ∀ j : Nat, j ≠ b + 1 → e.slotsAt (squeeze b j) = f.slotsAt j
  empty : f.slotsAt (b + 1) = []
  parent : ∀ j : Nat, j ≠ b + 1 → e.parent? (squeeze b j) = (f.parent? j).map (squeeze b)
  link : f.parent? (b + 1) = some b
  descends : ∀ j p : Nat, f.parent? j = some p → p < j

/-- In a well-formed environment parents have smaller numbers. -/
theorem WellFormed.parent_lt {env : Env} (hwf : env.WellFormed) {id p : ScopeId}
    (h : env.parent? id = some p) : p < id := by
  cases id with
  | zero => cases h
  | succ i =>
    obtain ⟨scope, hscope, rfl⟩ := Option.map_eq_some_iff.mp h
    exact Nat.lt_succ_of_le (hwf.parent_le i scope hscope)

namespace Inserted

variable {b h : Nat} {e f : Env}

/-- The same scope on both sides: the one on the left has the number that the other one gets when
the empty scope, which it is not, is taken out. -/
def SameScope (b : Nat) (i j : Nat) : Prop :=
  i = squeeze b j ∧ j ≠ b + 1

theorem slots_same (hi : Inserted b h e f) (i j : Nat) (hij : SameScope b i j) :
    (e.slotsAt i).Same (f.slotsAt j) := by
  obtain ⟨rfl, hj⟩ := hij
  intro name
  rw [hi.slots j hj]

/-! ## Names -/

/-- A name is found in the same scope on both sides. -/
theorem resolveFrom (hi : Inserted b h e f) (name : String) (j : Nat) :
    Option.Rel (SameScope b) (e.resolveFrom name (squeeze b j)) (f.resolveFrom name j) := by
  induction j using Nat.strongRecOn with
  | ind j ih =>
    rw [resolveFrom_eq f]
    by_cases hj : j = b + 1
    · -- Nothing is found in the empty scope, so the search goes on where the left one is.
      subst hj
      have hbelow := ih b (Nat.lt_succ_self b)
      rw [squeeze_of_le (Nat.le_refl b)] at hbelow
      rw [squeeze_of_lt (Nat.lt_succ_self b), hi.empty, hi.link]
      simpa using hbelow
    · rw [resolveFrom_eq e, hi.slots j hj]
      split
      · exact .some ⟨rfl, hj⟩
      · rw [hi.parent j hj]
        cases hp : f.parent? j with
        | none => exact .none
        | some p =>
          have hlt : p < j := hi.descends j p hp
          simp only [Option.map_some, hlt, squeeze_lt_squeeze hlt hj, if_true]
          exact ih p hlt

theorem squeeze_current (hi : Inserted b h e f) : squeeze b f.current = e.current := by
  rw [← hi.current_left, ← hi.current_right, squeeze_of_lt (by omega)]
  omega

theorem current_lt (hi : Inserted b h e f) : f.current < f.depth := by
  rw [← hi.current_right, hi.depth_right]
  exact Nat.add_lt_add_right (Nat.lt_succ_self (b + 1)) h

theorem resolve (hi : Inserted b h e f) (name : String) :
    Option.Rel (SameScope b) (e.resolve name) (f.resolve name) := by
  have hfound := hi.resolveFrom name f.current
  rw [hi.squeeze_current] at hfound
  exact hfound

/-! ## Changes -/

/-- A scope on the left exists if the same scope exists on the right. -/
theorem lt_depth_iff (hi : Inserted b h e f) (j : Nat) :
    squeeze b j < e.depth ↔ j < f.depth := by
  rw [hi.depth_left, hi.depth_right]
  unfold squeeze
  split <;> omega

theorem modifySlots (hi : Inserted b h e f) (g : Slots → Slots) {j : Nat} (hj : j ≠ b + 1)
    (hlt : j < f.depth) : Inserted b h (e.modifySlots g (squeeze b j)) (f.modifySlots g j) := by
  have hlt' : squeeze b j < e.depth := (hi.lt_depth_iff j).mpr hlt
  constructor
  case depth_left => rw [depth_modifySlots, hi.depth_left]
  case depth_right => rw [depth_modifySlots, hi.depth_right]
  case current_left => rw [current_modifySlots, hi.current_left]
  case current_right => rw [current_modifySlots, hi.current_right]
  case slots =>
    intro k hk
    by_cases hkj : k = j
    · subst hkj
      rw [slotsAt_modifySlots_self hlt', slotsAt_modifySlots_self hlt, hi.slots k hk]
    · have hne : squeeze b k ≠ squeeze b j := fun heq => hkj (eq_of_squeeze_eq hk hj heq)
      rw [slotsAt_modifySlots_ne hne, slotsAt_modifySlots_ne hkj, hi.slots k hk]
  case empty => rw [slotsAt_modifySlots_ne (Ne.symm hj), hi.empty]
  case parent =>
    intro k hk
    rw [parent?_modifySlots, parent?_modifySlots, hi.parent k hk]
  case link => rw [parent?_modifySlots, hi.link]
  case descends =>
    intro k p hp
    rw [parent?_modifySlots] at hp
    exact hi.descends k p hp

/-! ## Scopes -/

theorem push (hi : Inserted b h e f) {q : Nat} (hq : q < f.depth) :
    Inserted b (h + 1) (e.push (squeeze b q)) (f.push q) := by
  have hlast : squeeze b f.depth = e.depth := by
    rw [hi.depth_left, hi.depth_right, squeeze_of_lt (by omega)]
    omega
  have hlink : b + 1 < f.depth := by
    rw [hi.depth_right]
    omega
  constructor
  case depth_left => rw [depth_push, hi.depth_left]; rfl
  case depth_right => rw [depth_push, hi.depth_right]; rfl
  case current_left => rw [current_push, hi.depth_left]; omega
  case current_right => rw [current_push, hi.depth_right]; omega
  case slots =>
    intro j hj
    rw [slotsAt_push, slotsAt_push, hi.slots j hj]
  case empty => rw [slotsAt_push, hi.empty]
  case link => rw [parent?_push_of_lt hlink, hi.link]
  case parent =>
    intro j hj
    -- An older scope, the one that is entered, or none at all.
    rcases Nat.lt_trichotomy j f.depth with hlt | rfl | hgt
    · rw [parent?_push_of_lt hlt, parent?_push_of_lt ((hi.lt_depth_iff j).mpr hlt), hi.parent j hj]
    · rw [hlast, parent?_push_depth, parent?_push_depth]
      rfl
    · have hgt' : (e.push (squeeze b q)).depth ≤ squeeze b j := by
        have hlt := squeeze_lt_squeeze hgt hj
        rw [hlast] at hlt
        rw [depth_push]
        exact hlt
      rw [parent?_of_depth_le hgt', parent?_of_depth_le (by rw [depth_push]; exact hgt)]
      rfl
  case descends =>
    intro j p hp
    rcases Nat.lt_trichotomy j f.depth with hlt | rfl | hgt
    · rw [parent?_push_of_lt hlt] at hp
      exact hi.descends j p hp
    · rw [parent?_push_depth] at hp
      cases hp
      exact hq
    · rw [parent?_of_depth_le (by rw [depth_push]; exact hgt)] at hp
      cases hp

/-- Scopes that were entered on both sides are left together. -/
theorem pop (hi : Inserted b (h + 1) e f) :
    Inserted b h (e.pop (b + h)) (f.pop (b + 1 + h)) := by
  have he : e.depth = b + h + 2 := by
    rw [hi.depth_left]
    omega
  have hf : f.depth = b + 1 + h + 2 := by
    rw [hi.depth_right]
    omega
  have hdepth : (e.pop (b + h)).depth = b + 1 + h := by
    rw [depth_pop _ he]
    omega
  have hdepth' : (f.pop (b + 1 + h)).depth = b + 2 + h := by
    rw [depth_pop _ hf]
    omega
  -- A scope that is gone on the one side is gone on the other.
  have hscope : ∀ j, j ≠ b + 1 → (squeeze b j + 1 < e.depth ∧ j + 1 < f.depth) ∨
      ((e.pop (b + h)).depth ≤ squeeze b j ∧ (f.pop (b + 1 + h)).depth ≤ j) := by
    intro j hj
    rw [hdepth, hdepth', he, hf]
    unfold squeeze
    split <;> omega
  have hlink : b + 1 + 1 < f.depth := by
    rw [hf]
    omega
  refine ⟨hdepth, hdepth', rfl, rfl, ?_, ?_, ?_, ?_, ?_⟩
  · intro j hj
    rcases hscope j hj with ⟨hlt, hlt'⟩ | ⟨hle, hle'⟩
    · rw [slotsAt_pop_of_lt _ hlt, slotsAt_pop_of_lt _ hlt', hi.slots j hj]
    · rw [slotsAt_of_depth_le hle, slotsAt_of_depth_le hle']
  · rw [slotsAt_pop_of_lt _ hlink, hi.empty]
  · intro j hj
    rcases hscope j hj with ⟨hlt, hlt'⟩ | ⟨hle, hle'⟩
    · rw [parent?_pop_of_lt _ hlt, parent?_pop_of_lt _ hlt', hi.parent j hj]
    · rw [parent?_of_depth_le hle, parent?_of_depth_le hle']
      rfl
  · rw [parent?_pop_of_lt _ hlink, hi.link]
  · intro j p hp
    by_cases hj : j + 1 < f.depth
    · rw [parent?_pop_of_lt _ hj] at hp
      exact hi.descends j p hp
    · rw [parent?_of_depth_le (by rw [hdepth']; omega)] at hp
      cases hp

/-- **Evaluation keeps two environments that differ by an empty scope.** -/
theorem simulation (b : Nat) : Simulation (Inserted b) where
  lookup hi name := lookup?_eq_of_resolve (hi.resolve name) hi.slots_same
  assign hi name v := by
    refine sameOutcome_assign (hi.resolve name) hi.slots_same fun i j hij hlt => ?_
    obtain ⟨rfl, hj⟩ := hij
    exact hi.modifySlots _ hj ((hi.lt_depth_iff j).mp hlt)
  declare := by
    intro h e f hi name slot
    have hcurrent : f.current ≠ b + 1 := by
      rw [← hi.current_right]
      exact Nat.ne_of_gt (Nat.lt_add_of_pos_right (Nat.succ_pos h))
    refine sameOutcome_declare (hi.slots_same _ _ ⟨hi.squeeze_current.symm, hcurrent⟩) ?_
    rw [← hi.squeeze_current]
    exact hi.modifySlots _ hcurrent hi.current_lt
  nest := by
    intro h e f hi
    rw [← hi.squeeze_current]
    exact hi.push hi.current_lt
  call := by
    intro h e f hi
    have hglobal : squeeze b globalScope = globalScope := squeeze_of_le (Nat.zero_le b)
    have hlt : globalScope < f.depth := Nat.succ_pos _
    have hentered := hi.push hlt
    rwa [hglobal] at hentered
  leave hi hi' := by
    rw [← hi.current_left, ← hi.current_right]
    exact hi'.pop

end Inserted

/-! ## Entering and leaving the empty scope -/

theorem WellFormed.depth_eq {env : Env} (hwf : env.WellFormed) : env.depth = env.current + 1 := by
  rw [hwf.current_eq]
  rfl

/-- A scope that was just entered is empty. -/
theorem inserted_push {env : Env} (hwf : env.WellFormed) :
    Inserted env.current 0 env (env.push env.current) := by
  have hdepth := hwf.depth_eq
  constructor
  case depth_left => exact hdepth
  case depth_right => rw [depth_push, hdepth]
  case current_left => rfl
  case current_right => rw [current_push, hdepth]
  case empty => rw [slotsAt_push, slotsAt_of_depth_le (Nat.le_of_eq hdepth)]
  case link => rw [← hdepth, parent?_push_depth]
  case slots =>
    intro j hj
    rw [slotsAt_push]
    by_cases hle : j ≤ env.current
    · rw [squeeze_of_le hle]
    · rw [squeeze_of_lt (Nat.lt_of_not_le hle), slotsAt_of_depth_le (by omega),
        slotsAt_of_depth_le (by omega)]
  case parent =>
    intro j hj
    by_cases hle : j ≤ env.current
    · have hlt : j < env.depth := by omega
      rw [squeeze_of_le hle, parent?_push_of_lt hlt]
      cases hp : env.parent? j with
      | none => rfl
      | some p =>
        have hbelow : p ≤ env.current := Nat.le_trans (Nat.le_of_lt (hwf.parent_lt hp)) hle
        rw [Option.map_some, squeeze_of_le hbelow]
    · have hgone : (env.push env.current).depth ≤ j := by
        rw [depth_push]
        omega
      rw [squeeze_of_lt (Nat.lt_of_not_le hle), parent?_of_depth_le (by omega),
        parent?_of_depth_le hgone]
      rfl
  case descends =>
    intro j p hp
    have hlt : env.current < env.depth := Nat.lt_of_lt_of_eq (Nat.lt_succ_self _) hdepth.symm
    exact (hwf.push hlt).parent_lt hp

/-- When the empty scope is left, nothing of it remains. -/
theorem Inserted.pop_eq {b : Nat} {e f : Env} (hi : Inserted b 0 e f) : f.pop b = e := by
  have hdepth : (f.pop b).depth = e.depth := by
    rw [depth_pop b hi.depth_right, hi.depth_left]
  -- Below the empty scope the numbers are the same on both sides.
  have hscope : ∀ j, (j ≤ b ∧ j + 1 < f.depth) ∨ (e.depth ≤ j ∧ (f.pop b).depth ≤ j) := by
    intro j
    rw [hdepth, hi.depth_left, hi.depth_right]
    omega
  refine ext_of_views hdepth hi.current_left (fun j => ?_) fun j => ?_
  · rcases hscope j with ⟨hle, hlt⟩ | ⟨hgone, hgone'⟩
    · have hslots := hi.slots j (by omega)
      rw [squeeze_of_le hle] at hslots
      rw [slotsAt_pop_of_lt b hlt, hslots]
    · rw [slotsAt_of_depth_le hgone, slotsAt_of_depth_le hgone']
  · rcases hscope j with ⟨hle, hlt⟩ | ⟨hgone, hgone'⟩
    · have hparent := hi.parent j (by omega)
      rw [squeeze_of_le hle] at hparent
      rw [parent?_pop_of_lt b hlt, hparent]
      cases hp : f.parent? j with
      | none => rfl
      | some p =>
        have hbelow := hi.descends j p hp
        rw [Option.map_some, squeeze_of_le (by omega)]
    · rw [parent?_of_depth_le hgone, parent?_of_depth_le hgone']

end Env

/-- **A scope in which nothing is declared makes no difference.** -/
theorem Action.nested_eq_self {ε α : Type} {x : Action ε α}
    (hx : ∀ b, x.Simulates (Env.Inserted b)) {s : State} (hwf : s.env.WellFormed) :
    x.nested s = x s := by
  have hstart : s.Related (Env.Inserted s.env.current 0)
      { s with env := s.env.push s.env.current } := ⟨Env.inserted_push hwf, rfl, rfl, rfl⟩
  have hleave : ∀ {s' t' : State}, s'.Related (Env.Inserted s.env.current 0) t' →
      { t' with env := t'.env.pop s.env.current } = s' := by
    intro s' t' h
    obtain ⟨env, console, callDepth, displayed⟩ := s'
    obtain ⟨henv, hconsole, hcalls, hdisplayed⟩ := h
    rw [henv.pop_eq, hconsole, hcalls, hdisplayed]
  have hrelated := hx s.env.current 0 s _ hstart
  unfold nested inScope
  cases hs : x s <;> cases ht : x { s with env := s.env.push s.env.current } <;>
    rw [hs, ht] at hrelated <;> cases hrelated
  case done.done a s' t' h => exact congrArg (Result.done a) (hleave h)
  case stop.stop e s' t' h => exact congrArg (Result.stop e) (hleave h)
  case spent.spent => rfl

end Sugod
