import Sugod.Env.Lemmas

/-!
# When an assignment succeeds and what it changes

An assignment looks for the variable that its name means and gives it the value, if the variable
*admits* it (`Env.Admits`). It then changes one slot (`Env.find?_store`), and of that slot the value
only. So no later name means another variable than before, and no later value is admitted or refused
because of it (`Env.resolve_store`, `Env.admits_store`).
-/

set_option autoImplicit false

namespace Sugod

namespace Env

variable {env env' : Env} {name : String} {slot : Slot} {v : Value}

/-- The variable that the name means can be given the value: it is mutable, and its declared type is
that of the value. -/
def Admits (env : Env) (name : String) (v : Value) : Prop :=
  ∃ slot ty, env.lookup? name = some slot ∧ slot.mutable = true ∧ slot.ty = some ty ∧
    v.ty? = some ty

/-- The environment in which the variable of a scope has a new value. -/
def store (env : Env) (id : ScopeId) (name : String) (v : Value) : Env :=
  env.modifySlots (Slots.setValue name v) id

/-! ## Success -/

theorem lookup?_eq_some_iff :
    env.lookup? name = some slot ↔
      ∃ id, env.resolve name = some id ∧ (env.slotsAt id).find? name = some slot := by
  unfold lookup?
  cases env.resolve name <;> simp

/-- **An assignment succeeds exactly if the variable admits the value**, and stores it there. -/
theorem assign_eq_ok_iff :
    env.assign name v = .ok env' ↔
      env.Admits name v ∧ ∃ id, env.resolve name = some id ∧ env' = env.store id name v := by
  constructor
  · intro h
    unfold assign at h
    -- Every check that fails ends with an error, so one path is left.
    split at h
    · cases h
    · rename_i id hid
      split at h
      · cases h
      · rename_i slot hslot
        split at h
        · rename_i hmut
          split at h
          · cases h
          · rename_i ty hty
            split at h
            · rename_i hv
              have hlookup := lookup?_eq_some_iff.mpr ⟨id, hid, hslot⟩
              exact ⟨⟨slot, ty, hlookup, hmut, hty, hv⟩, id, hid, (Except.ok.inj h).symm⟩
            · cases h
        · cases h
  · rintro ⟨⟨slot, ty, hlookup, hmut, hty, hv⟩, id, hid, rfl⟩
    have hslot : (env.slotsAt id).find? name = some slot := by
      unfold lookup? at hlookup
      rwa [hid] at hlookup
    unfold assign
    simp only [hid, hslot, hmut, hty, hv, if_true]
    rfl

theorem assign_of_admits (h : env.Admits name v) :
    ∃ id, env.resolve name = some id ∧ env.assign name v = .ok (env.store id name v) := by
  have hadmits := h
  obtain ⟨slot, ty, hlookup, -⟩ := h
  obtain ⟨id, hid, -⟩ := lookup?_eq_some_iff.mp hlookup
  exact ⟨id, hid, assign_eq_ok_iff.mpr ⟨hadmits, id, hid, rfl⟩⟩

theorem admits_iff_ne_error : env.Admits name v ↔ ∀ c, env.assign name v ≠ .error c := by
  constructor
  · intro h c hc
    obtain ⟨id, -, hok⟩ := assign_of_admits h
    rw [hok] at hc
    cases hc
  · intro h
    cases hassign : env.assign name v with
    | ok env' => exact (assign_eq_ok_iff.mp hassign).1
    | error c => exact absurd hassign (h c)

/-! ## What is stored -/

section store

variable (env : Env) (id : ScopeId) (name : String) (v : Value)

@[simp] theorem depth_store : (env.store id name v).depth = env.depth :=
  depth_modifySlots env _ id

@[simp] theorem current_store : (env.store id name v).current = env.current :=
  current_modifySlots env _ id

@[simp] theorem parent?_store (other : ScopeId) :
    (env.store id name v).parent? other = env.parent? other :=
  parent?_modifySlots env _ id other

/-- One slot has the new value, and every other slot is as before. -/
theorem find?_store (other : ScopeId) (key : String) :
    ((env.store id name v).slotsAt other).find? key =
      if other = id ∧ key = name then
        ((env.slotsAt other).find? key).map fun slot => { slot with value := some v }
      else (env.slotsAt other).find? key := by
  by_cases hother : other = id
  · subst hother
    by_cases hid : other < env.depth
    · rw [store, slotsAt_modifySlots_self hid, Slots.find?_setValue]
      simp only [true_and]
    · -- A scope that does not exist has no variables, before or after.
      have hle : env.depth ≤ other := Nat.le_of_not_lt hid
      have hle' : (env.store other name v).depth ≤ other := by rwa [depth_store]
      rw [slotsAt_of_depth_le hle, slotsAt_of_depth_le hle']
      simp
  · rw [store, slotsAt_modifySlots_ne hother, if_neg fun h => hother h.1]

/-- Of a slot that is there, no more than the value may be new. -/
theorem exists_find?_store {other : ScopeId} {key : String}
    (h : (env.slotsAt other).find? key = some slot) :
    ∃ old, ((env.store id name v).slotsAt other).find? key = some { slot with value := old } := by
  rw [find?_store, h]
  split
  · exact ⟨some v, rfl⟩
  · exact ⟨slot.value, rfl⟩

/-- A new value adds no variable and removes none. -/
theorem isSome_find?_store (other : ScopeId) (key : String) :
    (((env.store id name v).slotsAt other).find? key).isSome =
      ((env.slotsAt other).find? key).isSome := by
  rw [find?_store]
  split <;> simp

theorem resolveFrom_store (key : String) (start : ScopeId) :
    (env.store id name v).resolveFrom key start = env.resolveFrom key start :=
  resolveFrom_congr (fun other => isSome_find?_store env id name v other key)
    (parent?_store env id name v) start

/-- After an assignment every name means the variable that it meant before. -/
theorem resolve_store (key : String) : (env.store id name v).resolve key = env.resolve key := by
  unfold resolve
  rw [resolveFrom_store, current_store]

/-- **An assignment makes no difference to whether and why another one fails.** -/
theorem assign_store_eq_error_iff {key : String} {w : Value} {c : Cause} :
    (env.store id name v).assign key w = .error c ↔ env.assign key w = .error c := by
  unfold assign
  rw [resolve_store]
  cases env.resolve key with
  | none => rfl
  | some other =>
    cases hslot : (env.slotsAt other).find? key with
    | none => simp [find?_store, hslot]
    | some slot =>
      -- What is checked of the slot is its type and whether it is mutable.
      obtain ⟨old, hold⟩ := exists_find?_store env id name v hslot
      simp only [hold, hslot]
      cases slot.mutable with
      | false => rfl
      | true =>
        cases slot.ty with
        | none => rfl
        | some ty => by_cases hty : w.ty? = some ty <;> simp [hty]

/-- An assignment makes no difference to what variables admit. -/
theorem admits_store {key : String} {w : Value} :
    (env.store id name v).Admits key w ↔ env.Admits key w := by
  simp only [admits_iff_ne_error, ne_eq, assign_store_eq_error_iff]

end store

end Env

end Sugod
