import Sugod.Proofs.Assignment
import Mathlib.Logic.Relation
import Mathlib.Tactic.Common

/-!
# Changes of an environment

All that a running program does to its variables comes down to two small changes. A *write* gives a
mutable slot, in whatever scope, a new value of its declared type. A *change* is a write or a new
slot in the current scope, under a name which that scope does not have yet.

* `Changes.sameShape`: changes touch variables only. The number of scopes, the current scope and the
  parents stay.
* `Changes.pop`: what is changed inside of a scope that is entered and left again is, seen from
  outside, a sequence of writes. What was declared in it is gone.
-/

set_option autoImplicit false

namespace Sugod

/-! ## Slots that agree with their declaration -/

/-- A typed slot holds nothing or a value of its type; an untyped one is immutable and holds
something that can be called. -/
def Slot.WellTyped (slot : Slot) : Prop :=
  match slot.ty with
  | some ty => ∀ v, slot.value = some v → v.ty? = some ty
  | none => slot.mutable = false ∧ ∃ v, slot.value = some v ∧ v.tag = .callable

namespace Slot

theorem wellTyped_unassigned (ty : Ty) (mutable : Bool) :
    WellTyped ⟨some ty, none, mutable⟩ := by
  intro v hv
  cases hv

theorem wellTyped_of_ty {ty : Ty} {v : Value} (h : v.ty? = some ty) (mutable : Bool) :
    WellTyped ⟨some ty, some v, mutable⟩ := by
  intro w hw
  obtain rfl := Option.some.inj hw
  exact h

theorem wellTyped_callable {v : Value} (h : v.tag = .callable) :
    WellTyped ⟨none, some v, false⟩ :=
  ⟨rfl, v, rfl, h⟩

end Slot

namespace Env

/-! ## Writes and changes -/

/-- A mutable slot of some scope gets a new value of its declared type. -/
inductive Write : Env → Env → Prop
  | mk {env : Env} {id : ScopeId} {name : String} {slot : Slot} {ty : Ty} {v : Value}
      (found : (env.slotsAt id).find? name = some slot) (mutable : slot.mutable = true)
      (slotTy : slot.ty = some ty) (valueTy : v.ty? = some ty) :
      Write env (env.modifySlots (Slots.setValue name v) id)

/-- A write, or a new slot in the current scope. -/
inductive Change : Env → Env → Prop
  | write {env env' : Env} (h : Write env env') : Change env env'
  | add {env : Env} {name : String} {slot : Slot}
      (fresh : (env.slotsAt env.current).find? name = none) (typed : slot.WellTyped) :
      Change env (env.modifySlots (fun slots => (name, slot) :: slots) env.current)

/-- Any number of writes. -/
abbrev Writes : Env → Env → Prop :=
  Relation.ReflTransGen Write

/-- Any number of changes. -/
abbrev Changes : Env → Env → Prop :=
  Relation.ReflTransGen Change

theorem Writes.changes {env env' : Env} (h : Writes env env') : Changes env env' :=
  Relation.ReflTransGen.mono (fun _ _ hw => Change.write hw) _ _ h

/-- An assignment that succeeds is a write. -/
theorem write_of_assign {env env' : Env} {name : String} {v : Value}
    (h : env.assign name v = .ok env') : Write env env' := by
  obtain ⟨⟨slot, ty, hlookup, hmut, hty, hv⟩, id, hid, rfl⟩ := assign_eq_ok_iff.mp h
  obtain ⟨other, hother, hslot⟩ := lookup?_eq_some_iff.mp hlookup
  obtain rfl : id = other := Option.some.inj (hid.symm.trans hother)
  exact .mk hslot hmut hty hv

/-- A declaration that succeeds is a change. -/
theorem change_of_declare {env env' : Env} {name : String} {slot : Slot} (typed : slot.WellTyped)
    (h : env.declare name slot = .ok env') : Change env env' := by
  unfold declare at h
  split at h
  · cases h
  · rename_i hfresh
    obtain rfl := Except.ok.inj h
    exact .add (Option.not_isSome_iff_eq_none.mp hfresh) typed

/-! ## The shape of the scopes -/

/-- The same scopes, up to their variables. -/
structure SameShape (env env' : Env) : Prop where
  depth : env'.depth = env.depth
  current : env'.current = env.current
  parent : ∀ id, env'.parent? id = env.parent? id

theorem SameShape.refl (env : Env) : SameShape env env :=
  ⟨rfl, rfl, fun _ => rfl⟩

theorem SameShape.trans {a b c : Env} (hab : SameShape a b) (hbc : SameShape b c) :
    SameShape a c :=
  ⟨hbc.depth.trans hab.depth, hbc.current.trans hab.current,
    fun id => (hbc.parent id).trans (hab.parent id)⟩

theorem sameShape_modifySlots (env : Env) (f : Slots → Slots) (id : ScopeId) :
    SameShape env (env.modifySlots f id) :=
  ⟨depth_modifySlots env f id, current_modifySlots env f id,
    fun other => parent?_modifySlots env f id other⟩

theorem Change.sameShape {env env' : Env} (h : Change env env') : SameShape env env' := by
  cases h with
  | write hw =>
    cases hw
    exact sameShape_modifySlots _ _ _
  | add => exact sameShape_modifySlots _ _ _

theorem Changes.sameShape {env env' : Env} (h : Changes env env') : SameShape env env' := by
  induction h with
  | refl => exact .refl _
  | tail _ hstep ih => exact ih.trans hstep.sameShape

/-- The discipline of the scopes is a matter of their shape. -/
theorem SameShape.wellFormed {env env' : Env} (h : SameShape env env') (hwf : env.WellFormed) :
    env'.WellFormed := by
  rw [wellFormed_iff] at hwf ⊢
  rw [h.current, h.depth, h.parent]
  obtain ⟨hcurrent, hglobal, hparent⟩ := hwf
  refine ⟨hcurrent, hglobal, fun i hi => ?_⟩
  rw [h.parent]
  exact hparent i hi

/-! ## Leaving a scope -/

/-- A change of the variables of an outer scope can be made before or after leaving. -/
theorem pop_modifySlots_of_lt {env : Env} {f : Slots → Slots} {id previous : ScopeId}
    (h : id + 1 < env.depth) :
    (env.modifySlots f id).pop previous = (env.pop previous).modifySlots f id := by
  cases id with
  | zero => rfl
  | succ i =>
    have hi : i + 1 < env.locals.size := Nat.lt_of_succ_lt_succ h
    simp only [modifySlots, pop, Env.mk.injEq, true_and, and_true]
    apply Array.ext_getElem?
    intro j
    simp only [Array.getElem?_pop, Array.getElem?_modify, Array.size_modify]
    by_cases hj : j < env.locals.size - 1
    · simp [hj]
    · simp [hj]

/-- A change of the variables of the last scope is gone after leaving. -/
theorem pop_modifySlots_last {env : Env} {f : Slots → Slots} {previous : ScopeId}
    (h : 0 < env.locals.size) :
    (env.modifySlots f env.locals.size).pop previous = env.pop previous := by
  obtain ⟨i, hi⟩ : ∃ i, env.locals.size = i + 1 := ⟨env.locals.size - 1, by omega⟩
  rw [hi]
  simp only [modifySlots, pop, Env.mk.injEq, true_and, and_true]
  apply Array.ext_getElem?
  intro j
  simp only [Array.getElem?_pop, Array.getElem?_modify, Array.size_modify, hi]
  by_cases hj : j < i
  · simp [hj, Nat.ne_of_gt hj]
  · simp [hj]

/-- Seen from outside, a change in a scope that was entered is a write or nothing. -/
theorem Change.pop {env env' : Env} {previous : ScopeId} (hlast : env.current = env.locals.size)
    (hpos : 0 < env.locals.size) (h : Change env env') :
    Writes (env.pop previous) (env'.pop previous) := by
  cases h with
  | add fresh typed =>
    rw [hlast, pop_modifySlots_last hpos]
  | write hw =>
    obtain ⟨found, hmut, hty, hv⟩ := hw
    rename_i id name slot ty v
    have hid : id < env.locals.size + 1 := lt_depth_of_find? found
    -- A write into the scope that is left is gone with it; any other one can be made afterwards.
    by_cases hl : id = env.locals.size
    · rw [hl, pop_modifySlots_last hpos]
    · have hlt : id + 1 < env.depth := by
        show id + 1 < env.locals.size + 1
        exact Nat.succ_lt_succ (Nat.lt_of_le_of_ne (Nat.le_of_lt_succ hid) hl)
      rw [pop_modifySlots_of_lt hlt]
      rw [← slotsAt_pop_of_lt previous hlt] at found
      exact .single (.mk found hmut hty hv)

/-- **What is changed inside of a scope is, after leaving it, a sequence of writes.** -/
theorem Changes.pop {env inner : Env} {parent : ScopeId} (h : Changes (env.push parent) inner) :
    Writes env (inner.pop env.current) := by
  induction h with
  | refl => rw [pop_push]
  | tail hsteps hstep ih =>
    rename_i mid last
    -- Changes keep the shape, so the scope that was entered is still the last and the current one.
    have shape := Changes.sameShape hsteps
    have hdepth : mid.locals.size + 1 = env.depth + 1 := by
      rw [← depth_push env parent]
      exact shape.depth
    have hsize : mid.locals.size = env.depth := Nat.succ.inj hdepth
    have hcurrent : mid.current = mid.locals.size := by
      rw [hsize]
      exact shape.current
    have hpos : 0 < mid.locals.size := by
      rw [hsize]
      exact Nat.succ_pos _
    exact ih.trans (hstep.pop hcurrent hpos)

end Env

end Sugod
