import Sugod.Env

/-!
# What the operations on environments do

An environment is seen through `slotsAt`, the variables of each scope, and through `depth`,
`current` and `parent?`, the parents of the scopes. Each operation has one lemma for each of these
views. `WellFormed` is the discipline of the scopes: the current scope is the last one, and every
parent has a smaller number than its scope. `AllSlots` is what all variables have in common.
-/

set_option autoImplicit false

namespace Sugod

namespace Slots

@[simp] theorem find?_nil (key : String) : Slots.find? [] key = none := rfl

theorem find?_cons (name : String) (slot : Slot) (slots : Slots) (key : String) :
    Slots.find? ((name, slot) :: slots) key =
      if key = name then some slot else slots.find? key := by
  unfold find?
  rw [List.lookup_cons]
  by_cases h : key = name
  · simp [h]
  · simp [h, beq_eq_false_iff_ne.mpr h]

/-- A new value changes the slot of its name and no other. -/
theorem find?_setValue (name : String) (v : Value) (slots : Slots) (key : String) :
    (setValue name v slots).find? key =
      if key = name then (slots.find? key).map fun slot => { slot with value := some v }
      else slots.find? key := by
  induction slots with
  | nil => simp [setValue]
  | cons entry rest ih =>
    obtain ⟨k, slot⟩ := entry
    by_cases hk : k = name
    · by_cases h : key = name
      · simp [setValue, hk, h, find?_cons]
      · simp [setValue, hk, h, find?_cons]
    · by_cases h : key = name
      · have hn : ¬ name = k := fun e => hk e.symm
        simp [setValue, hk, h, find?_cons, hn] at ih ⊢
        exact ih
      · simp [setValue, hk, h, find?_cons] at ih ⊢
        rw [ih]

/-- A new value adds no name and removes none. -/
theorem isSome_find?_setValue (name : String) (v : Value) (slots : Slots) (key : String) :
    ((setValue name v slots).find? key).isSome = (slots.find? key).isSome := by
  rw [find?_setValue]
  split <;> simp

/-- Putting a slot under a name changes the slot of that name and no other. -/
theorem find?_insert (name : String) (slot : Slot) (slots : Slots) (key : String) :
    (slots.insert name slot).find? key = if key = name then some slot else slots.find? key := by
  unfold insert
  rw [find?_cons]
  split
  · rfl
  · rename_i hkey
    induction slots with
    | nil => rfl
    | cons entry rest ih =>
      obtain ⟨k, other⟩ := entry
      by_cases hk : k = name
      · simp only [List.filter_cons, hk, ne_eq, not_true_eq_false, decide_false, find?_cons]
        rw [if_neg hkey]
        exact ih
      · simp only [List.filter_cons, hk, ne_eq, not_false_eq_true, decide_true, if_true, find?_cons]
        rw [ih]

end Slots

namespace Env

/-- The parent of a scope; the global scope has none. -/
def parent? (env : Env) : ScopeId → Option ScopeId
  | 0 => none
  | i + 1 => env.locals[i]?.map Scope.parent

@[simp] theorem parent?_global (env : Env) : env.parent? globalScope = none := rfl

/-- A scope that does not exist has no variables. -/
theorem slotsAt_of_depth_le {env : Env} {id : ScopeId} (h : env.depth ≤ id) :
    env.slotsAt id = [] := by
  cases id with
  | zero => exact absurd h (by simp [depth])
  | succ i =>
    have hi : env.locals[i]? = none := Array.getElem?_eq_none (Nat.le_of_succ_le_succ h)
    simp [slotsAt, hi]

/-- A scope that does not exist has no parent. -/
theorem parent?_of_depth_le {env : Env} {id : ScopeId} (h : env.depth ≤ id) :
    env.parent? id = none := by
  cases id with
  | zero => rfl
  | succ i =>
    have hi : env.locals[i]? = none := Array.getElem?_eq_none (Nat.le_of_succ_le_succ h)
    simp [parent?, hi]

/-- A scope in which a name is found exists. -/
theorem lt_depth_of_find? {env : Env} {id : ScopeId} {name : String} {slot : Slot}
    (h : (env.slotsAt id).find? name = some slot) : id < env.depth := by
  refine Nat.lt_of_not_le fun hle => ?_
  rw [slotsAt_of_depth_le hle] at h
  exact absurd h (by simp)

/-- The search for a name, in terms of the variables and the parent of each scope. -/
theorem resolveFrom_eq (env : Env) (name : String) (id : ScopeId) :
    env.resolveFrom name id =
      if ((env.slotsAt id).find? name).isSome then some id
      else
        match env.parent? id with
        | none => none
        | some p => if p < id then env.resolveFrom name p else none := by
  cases id with
  | zero =>
    rw [resolveFrom]
    rfl
  | succ i =>
    rw [resolveFrom]
    cases hs : env.locals[i]? with
    | none => simp [slotsAt, parent?, hs]
    | some scope =>
      have hlt : scope.parent < i + 1 ↔ scope.parent ≤ i := Nat.lt_succ_iff
      simp only [slotsAt, parent?, hs, Option.map_some, hlt, dite_eq_ite]

/-- A name is found in the same scope if every scope has it or not as before and has its parent. -/
theorem resolveFrom_congr {env env' : Env} {name : String}
    (hnames : ∀ id, ((env'.slotsAt id).find? name).isSome = ((env.slotsAt id).find? name).isSome)
    (hparent : ∀ id, env'.parent? id = env.parent? id) (id : ScopeId) :
    env'.resolveFrom name id = env.resolveFrom name id := by
  induction id using Nat.strongRecOn with
  | ind id ih =>
    rw [resolveFrom_eq, resolveFrom_eq env, hnames, hparent]
    cases env.parent? id with
    | none => rfl
    | some p =>
      by_cases hp : p < id
      · simp only [hp, if_true, ih p hp]
      · simp only [hp, if_false]

/-- The current scope is the last one, and every parent has a smaller number than its scope. -/
structure WellFormed (env : Env) : Prop where
  current_eq : env.current = env.locals.size
  parent_le : ∀ (i : Nat) (scope : Scope), env.locals[i]? = some scope → scope.parent ≤ i

/-- The discipline in terms of the parents: the current scope is the last one, the global scope has
no parent, and every other scope has one with a smaller number. -/
theorem wellFormed_iff (env : Env) :
    env.WellFormed ↔ env.current + 1 = env.depth ∧ env.parent? globalScope = none ∧
      ∀ i, i + 1 < env.depth → ∃ p, env.parent? (i + 1) = some p ∧ p < i + 1 := by
  constructor
  · intro h
    refine ⟨congrArg (· + 1) h.current_eq, rfl, fun i hi => ?_⟩
    have hi : i < env.locals.size := Nat.lt_of_succ_lt_succ hi
    have hs : env.locals[i]? = some env.locals[i] := Array.getElem?_eq_getElem hi
    exact ⟨env.locals[i].parent, by simp [parent?, hs], Nat.lt_succ_of_le (h.parent_le i _ hs)⟩
  · rintro ⟨hcurrent, -, hparent⟩
    refine ⟨Nat.succ.inj hcurrent, fun i scope hs => ?_⟩
    obtain ⟨hi, -⟩ := Array.getElem?_eq_some_iff.mp hs
    obtain ⟨p, hp, hlt⟩ := hparent i (Nat.succ_lt_succ hi)
    have hp : scope.parent = p := by simpa [parent?, hs] using hp
    rw [hp]
    exact Nat.le_of_lt_succ hlt

theorem wellFormed_empty : WellFormed {} :=
  ⟨rfl, fun i scope h => by simp at h⟩

/-- Entering a scope under an existing one keeps the discipline. -/
theorem WellFormed.push {env : Env} (h : env.WellFormed) {parent : ScopeId}
    (hp : parent < env.depth) : (env.push parent).WellFormed := by
  refine ⟨by simp [Env.push], ?_⟩
  intro i scope hs
  simp only [Env.push, Array.getElem?_push] at hs
  split at hs
  · obtain rfl := Option.some.inj hs
    subst i
    exact Nat.le_of_lt_succ hp
  · exact h.parent_le i scope hs

@[simp] theorem depth_push (env : Env) (parent : ScopeId) :
    (env.push parent).depth = env.depth + 1 := by
  simp [depth, push]

@[simp] theorem current_push (env : Env) (parent : ScopeId) :
    (env.push parent).current = env.depth := rfl

/-- Leaving a scope that was just entered restores the environment. -/
@[simp] theorem pop_push (env : Env) (parent : ScopeId) :
    (env.push parent).pop env.current = env := by
  simp [push, pop]

/-- A scope that was just entered has no variables, and those of the others stay. -/
@[simp] theorem slotsAt_push (env : Env) (parent id : ScopeId) :
    (env.push parent).slotsAt id = env.slotsAt id := by
  cases id with
  | zero => rfl
  | succ i =>
    by_cases hi : i = env.locals.size
    · simp [slotsAt, push, hi]
    · simp [slotsAt, push, Array.getElem?_push, hi]

theorem parent?_push_of_lt {env : Env} {parent id : ScopeId} (h : id < env.depth) :
    (env.push parent).parent? id = env.parent? id := by
  cases id with
  | zero => rfl
  | succ i =>
    have hi : i ≠ env.locals.size := Nat.ne_of_lt (Nat.lt_of_succ_lt_succ h)
    simp [parent?, push, Array.getElem?_push, hi]

@[simp] theorem parent?_push_depth (env : Env) (parent : ScopeId) :
    (env.push parent).parent? env.depth = some parent := by
  simp [parent?, push, depth]

@[simp] theorem current_pop (env : Env) (previous : ScopeId) :
    (env.pop previous).current = previous := rfl

theorem depth_pop {env : Env} (previous : ScopeId) {d : Nat} (h : env.depth = d + 2) :
    (env.pop previous).depth = d + 1 := by
  have hsize : env.locals.size = d + 1 := Nat.succ.inj h
  show env.locals.pop.size + 1 = d + 1
  rw [Array.size_pop, hsize]
  rfl

/-- Leaving a scope keeps the others as they are. -/
theorem getElem?_locals_pop {env : Env} (previous : ScopeId) {i : Nat}
    (h : i + 1 < env.locals.size) : (env.pop previous).locals[i]? = env.locals[i]? := by
  simp only [pop]
  rw [Array.getElem?_pop, if_pos (Nat.lt_sub_of_add_lt h)]

theorem slotsAt_pop_of_lt {env : Env} (previous : ScopeId) {id : ScopeId}
    (h : id + 1 < env.depth) : (env.pop previous).slotsAt id = env.slotsAt id := by
  cases id with
  | zero => rfl
  | succ i =>
    simp only [slotsAt, getElem?_locals_pop previous (Nat.lt_of_succ_lt_succ h)]

theorem parent?_pop_of_lt {env : Env} (previous : ScopeId) {id : ScopeId}
    (h : id + 1 < env.depth) : (env.pop previous).parent? id = env.parent? id := by
  cases id with
  | zero => rfl
  | succ i =>
    simp only [parent?, getElem?_locals_pop previous (Nat.lt_of_succ_lt_succ h)]

@[simp] theorem depth_modifySlots (env : Env) (f : Slots → Slots) (id : ScopeId) :
    (env.modifySlots f id).depth = env.depth := by
  cases id <;> simp [modifySlots, depth]

@[simp] theorem current_modifySlots (env : Env) (f : Slots → Slots) (id : ScopeId) :
    (env.modifySlots f id).current = env.current := by
  cases id <;> rfl

@[simp] theorem parent?_modifySlots (env : Env) (f : Slots → Slots) (id other : ScopeId) :
    (env.modifySlots f id).parent? other = env.parent? other := by
  cases id with
  | zero => cases other <;> rfl
  | succ i =>
    cases other with
    | zero => rfl
    | succ j =>
      by_cases h : i = j
      · simp [modifySlots, parent?, Array.getElem?_modify, h, Function.comp_def]
      · simp [modifySlots, parent?, Array.getElem?_modify, h]

/-- A change of the variables of one scope is seen there. -/
theorem slotsAt_modifySlots_self {env : Env} {f : Slots → Slots} {id : ScopeId}
    (h : id < env.depth) : (env.modifySlots f id).slotsAt id = f (env.slotsAt id) := by
  cases id with
  | zero => rfl
  | succ i =>
    have hi : i < env.locals.size := Nat.lt_of_succ_lt_succ h
    simp [modifySlots, slotsAt, hi, Array.getElem_modify]

/-- A change of the variables of one scope is not seen in another. -/
theorem slotsAt_modifySlots_ne {env : Env} {f : Slots → Slots} {id other : ScopeId}
    (h : other ≠ id) : (env.modifySlots f id).slotsAt other = env.slotsAt other := by
  cases id with
  | zero =>
    cases other with
    | zero => exact absurd rfl h
    | succ j => rfl
  | succ i =>
    cases other with
    | zero => rfl
    | succ j =>
      have hj : i ≠ j := fun e => h (by rw [e])
      simp [modifySlots, slotsAt, Array.getElem?_modify, hj]

/-- After a change of the variables of one scope, a scope has the changed variables or those that it
had before. -/
theorem slotsAt_modifySlots_cases (env : Env) (f : Slots → Slots) (id other : ScopeId) :
    (other = id ∧ (env.modifySlots f id).slotsAt other = f (env.slotsAt other)) ∨
      (env.modifySlots f id).slotsAt other = env.slotsAt other := by
  by_cases ho : other = id
  · subst ho
    by_cases hid : other < env.depth
    · exact .inl ⟨rfl, slotsAt_modifySlots_self hid⟩
    · have hle : env.depth ≤ other := Nat.le_of_not_lt hid
      rw [slotsAt_of_depth_le hle, slotsAt_of_depth_le (by rw [depth_modifySlots]; exact hle)]
      exact .inr rfl
  · exact .inr (slotsAt_modifySlots_ne ho)

/-- The discipline of the scopes does not depend on their variables. -/
theorem WellFormed.modifySlots {env : Env} (h : env.WellFormed) (f : Slots → Slots)
    (id : ScopeId) : (env.modifySlots f id).WellFormed := by
  cases id with
  | zero => exact ⟨h.current_eq, h.parent_le⟩
  | succ i =>
    refine ⟨by simpa [Env.modifySlots] using h.current_eq, ?_⟩
    intro j scope hs
    simp only [Env.modifySlots, Array.getElem?_modify] at hs
    split at hs
    · obtain ⟨old, hold, rfl⟩ := Option.map_eq_some_iff.mp hs
      exact h.parent_le j old hold
    · exact h.parent_le j scope hs

/-! ## What all slots have in common -/

/-- Every slot of every scope has the property. -/
def AllSlots (P : Slot → Prop) (env : Env) : Prop :=
  ∀ id name slot, (env.slotsAt id).find? name = some slot → P slot

section AllSlots

variable {P : Slot → Prop} {env : Env}

theorem allSlots_empty : AllSlots P {} := by
  intro id name slot h
  cases id <;> simp [slotsAt] at h

/-- Slots that all have the property can replace those of a scope. -/
theorem AllSlots.modifySlots (h : env.AllSlots P) {f : Slots → Slots} {id : ScopeId}
    (hf : ∀ name slot, (f (env.slotsAt id)).find? name = some slot → P slot) :
    (env.modifySlots f id).AllSlots P := by
  intro other name slot hslot
  rcases slotsAt_modifySlots_cases env f id other with ⟨rfl, hslots⟩ | hslots
  · rw [hslots] at hslot
    exact hf name slot hslot
  · rw [hslots] at hslot
    exact h other name slot hslot

/-- A slot gets a value with which it has the property. -/
theorem AllSlots.setValue (h : env.AllSlots P) {id : ScopeId} {name : String} {slot : Slot}
    {v : Value} (found : (env.slotsAt id).find? name = some slot)
    (hslot : P { slot with value := some v }) :
    (env.modifySlots (Slots.setValue name v) id).AllSlots P := by
  refine h.modifySlots fun key new hnew => ?_
  rw [Slots.find?_setValue] at hnew
  split at hnew
  · rename_i hkey
    subst hkey
    rw [found] at hnew
    obtain rfl := Option.some.inj hnew
    exact hslot
  · exact h id key new hnew

/-- A scope gets one more slot, which has the property. -/
theorem AllSlots.cons (h : env.AllSlots P) (id : ScopeId) (name : String) {slot : Slot}
    (hslot : P slot) : (env.modifySlots (fun slots => (name, slot) :: slots) id).AllSlots P := by
  refine h.modifySlots fun key new hnew => ?_
  rw [Slots.find?_cons] at hnew
  split at hnew
  · obtain rfl := Option.some.inj hnew
    exact hslot
  · exact h id key new hnew

theorem AllSlots.push (h : env.AllSlots P) (parent : ScopeId) : (env.push parent).AllSlots P := by
  intro id name slot hslot
  rw [slotsAt_push] at hslot
  exact h id name slot hslot

theorem AllSlots.pop (h : env.AllSlots P) (previous : ScopeId) :
    (env.pop previous).AllSlots P := by
  intro id name slot hslot
  cases id with
  | zero => exact h 0 name slot hslot
  | succ i =>
    have hlocals : (env.pop previous).locals[i]? =
        if i < env.locals.size - 1 then env.locals[i]? else none := Array.getElem?_pop
    simp only [slotsAt, hlocals] at hslot
    by_cases hi : i < env.locals.size - 1
    · rw [if_pos hi] at hslot
      exact h (i + 1) name slot hslot
    · rw [if_neg hi] at hslot
      cases hslot

theorem AllSlots.defineGlobal (h : env.AllSlots P) (name : String) {v : Value}
    (hslot : P ⟨none, some v, false⟩) : (env.defineGlobal name v).AllSlots P := by
  intro id key slot hfound
  cases id with
  | zero =>
    have hinsert : (env.globals.insert name ⟨none, some v, false⟩).find? key = some slot := hfound
    rw [Slots.find?_insert] at hinsert
    split at hinsert
    · obtain rfl := Option.some.inj hinsert
      exact hslot
    · exact h globalScope key slot hinsert
  | succ i => exact h (i + 1) key slot hfound

end AllSlots

end Env

end Sugod
