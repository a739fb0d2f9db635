import Sugod.Action
import Sugod.Proofs.BalancedScopes

/-!
# The variable that an assignment writes

Reading a name and assigning to it look for the variable each on its own. Both walk along the
parents, from the current scope on, over scopes of which many may have a variable of that name.

`Env.Nearest` says which of them is meant without the walk: it is the nearest one on the chain of
parents. The walk finds it (`Env.nearest_of_resolveFrom`), and if it finds nothing, no scope on the
chain has the name (`Env.Descends.resolveFrom_eq_none_iff`). The latter needs every parent to be
smaller than its scope, which is so in every environment that can be built (`Env.Built.descends`).

**`assignment_writes_read_slot`** is the main statement. An assignment writes the variable that
reads see and nothing else, or it fails and nothing is written.
-/

set_option autoImplicit false

namespace Sugod

namespace Env

/-! ## Environments that can be built -/

/-- What the operations make of a new environment. A scope is entered under any scope that exists,
and left for any that remains; declarations and assignments may fail. -/
inductive Built : Env → Prop
  | new : Built {}
  | push {env : Env} {parent : ScopeId} (h : Built env) (hparent : parent < env.depth) :
      Built (env.push parent)
  | pop {env : Env} {previous : ScopeId} (h : Built env) (hprevious : previous + 1 < env.depth) :
      Built (env.pop previous)
  | declare {env : Env} (h : Built env) (name : String) (slot : Slot) :
      Built (env.orSame (env.declare name slot))
  | defineGlobal {env : Env} (h : Built env) (name : String) (v : Value) :
      Built (env.defineGlobal name v)
  | assign {env : Env} (h : Built env) (name : String) (v : Value) :
      Built (env.orSame (env.assign name v))

/-- Leaving the scopes in stack order, each for the one that was current before, is one way of
building an environment. -/
theorem Reachable.built {o : Opened} (h : Reachable o) : o.env.Built := by
  obtain ⟨ops, hops⟩ := h
  induction ops using List.reverseRecOn generalizing o with
  | nil =>
    cases hops
    exact .new
  | append_singleton ops op ih =>
    obtain ⟨m, hm, hstep⟩ := run?_concat_eq_some ops hops
    have hbuilt := ih hm
    cases op with
    | push parent =>
      by_cases hparent : parent < m.env.depth
      · rw [Op.step?, if_pos hparent] at hstep
        cases hstep
        exact .push hbuilt hparent
      · rw [Op.step?, if_neg hparent] at hstep
        cases hstep
    | pop =>
      have hdisciplined := disciplined_new.run hm
      obtain ⟨env, kept⟩ := m
      cases kept with
      | nil => cases hstep
      | cons previous kept =>
        cases hstep
        -- The numbers that are kept are those of the scopes below the last one.
        have hmem : previous ∈ (List.range env.locals.size).reverse :=
          hdisciplined.kept ▸ List.mem_cons_self
        rw [List.mem_reverse, List.mem_range] at hmem
        exact .pop hbuilt (Nat.succ_lt_succ hmem)
    | declare name slot =>
      cases hstep
      exact .declare hbuilt name slot
    | defineGlobal name v =>
      cases hstep
      exact .defineGlobal hbuilt name v
    | assign name v =>
      cases hstep
      exact .assign hbuilt name v
    | get name =>
      cases hstep
      exact hbuilt
    | lookup name =>
      cases hstep
      exact hbuilt

/-- Every parent has a smaller number than its scope. -/
def Descends (env : Env) : Prop :=
  ∀ id p, env.parent? id = some p → p < id

theorem Descends.of_parent?_eq {env env' : Env} (h : env.Descends)
    (hparent : ∀ id, env'.parent? id = env.parent? id) : env'.Descends :=
  fun id p hp => h id p (hparent id ▸ hp)

theorem Descends.push {env : Env} (h : env.Descends) {parent : ScopeId}
    (hparent : parent < env.depth) : (env.push parent).Descends := by
  intro id p hp
  rcases Nat.lt_trichotomy id env.depth with hlt | rfl | hgt
  · rw [parent?_push_of_lt hlt] at hp
    exact h id p hp
  · rw [parent?_push_depth] at hp
    obtain rfl := Option.some.inj hp
    exact hparent
  · rw [parent?_of_depth_le (by rw [depth_push]; exact hgt)] at hp
    cases hp

theorem Descends.pop {env : Env} (h : env.Descends) {previous : ScopeId}
    (hprevious : previous + 1 < env.depth) : (env.pop previous).Descends := by
  intro id p hp
  have hdepth : 1 < env.depth := Nat.lt_of_le_of_lt (Nat.le_add_left 1 previous) hprevious
  obtain ⟨d, hd⟩ : ∃ d, env.depth = d + 2 := ⟨env.depth - 2, by omega⟩
  by_cases hid : id + 1 < env.depth
  · rw [parent?_pop_of_lt previous hid] at hp
    exact h id p hp
  · have hgone : (env.pop previous).depth ≤ id := by
      rw [depth_pop previous hd]
      rw [hd] at hid
      exact Nat.le_of_lt_succ (Nat.lt_of_not_le fun hle => hid (Nat.succ_lt_succ hle))
    rw [parent?_of_depth_le hgone] at hp
    cases hp

theorem Built.descends {env : Env} (h : env.Built) : env.Descends := by
  induction h with
  | new =>
    intro id p hp
    cases id <;> cases hp
  | push _ hparent ih => exact ih.push hparent
  | pop _ hprevious ih => exact ih.pop hprevious
  | @declare env _ name slot ih =>
    unfold Env.declare
    split
    · exact ih
    · exact ih.of_parent?_eq fun id => parent?_modifySlots env _ _ id
  | @defineGlobal env _ name v ih => exact ih.of_parent?_eq fun id => by cases id <;> rfl
  | @assign env _ name v ih =>
    cases hassign : env.assign name v with
    | error c => exact ih
    | ok env' =>
      obtain ⟨-, target, -, rfl⟩ := assign_eq_ok_iff.mp hassign
      exact ih.of_parent?_eq fun id => parent?_store env target name v id

/-! ## The nearest variable -/

/-- From a scope one gets to another by going to the parent, any number of times. -/
def Chain (env : Env) : ScopeId → ScopeId → Prop :=
  Relation.ReflTransGen fun id p => env.parent? id = some p

/-- Of the scopes on the chain that begins with `start`, this is the nearest one that has the name:
every other one that has it comes later. -/
structure Nearest (env : Env) (name : String) (start id : ScopeId) : Prop where
  chain : env.Chain start id
  found : ((env.slotsAt id).find? name).isSome = true
  later : ∀ other, env.Chain start other → ((env.slotsAt other).find? name).isSome = true →
    env.Chain id other

variable {env env' : Env} {name : String} {slot : Slot} {v : Value} {start id : ScopeId}

theorem nearest_self (h : ((env.slotsAt id).find? name).isSome = true) : env.Nearest name id id :=
  ⟨.refl, h, fun _ hother _ => hother⟩

/-- What is nearest for the parent is nearest for a scope that does not have the name. -/
theorem Nearest.up {p : ScopeId} (h : env.Nearest name p id) (hparent : env.parent? start = some p)
    (hstart : (env.slotsAt start).find? name = none) : env.Nearest name start id := by
  refine ⟨.head hparent h.chain, h.found, fun other hother hfound => ?_⟩
  rcases hother.cases_head with rfl | ⟨q, hq, hrest⟩
  · rw [hstart] at hfound
    cases hfound
  · obtain rfl : p = q := Option.some.inj (hparent.symm.trans hq)
    exact h.later other hrest hfound

/-- **What the walk finds is the nearest.** -/
theorem nearest_of_resolveFrom (h : env.resolveFrom name start = some id) :
    env.Nearest name start id := by
  induction start using Nat.strongRecOn with
  | ind start ih =>
    rw [resolveFrom_eq] at h
    cases hstart : (env.slotsAt start).find? name with
    | some slot =>
      obtain rfl : start = id := by simpa [hstart] using h
      exact nearest_self (by rw [hstart]; rfl)
    | none =>
      cases hparent : env.parent? start with
      | none => simp [hstart, hparent] at h
      | some p =>
        by_cases hp : p < start
        · have hnext : env.resolveFrom name p = some id := by simpa [hstart, hparent, hp] using h
          exact (ih p hp hnext).up hparent hstart
        · simp [hstart, hparent, hp] at h

/-- **The walk finds nothing exactly if no scope on the chain has the name.** -/
theorem Descends.resolveFrom_eq_none_iff (h : env.Descends) :
    env.resolveFrom name start = none ↔
      ∀ id, env.Chain start id → (env.slotsAt id).find? name = none := by
  constructor
  · intro hnone
    induction start using Nat.strongRecOn with
    | ind start ih =>
      rw [resolveFrom_eq] at hnone
      have hstart : (env.slotsAt start).find? name = none := by
        rw [← Option.not_isSome_iff_eq_none]
        intro hsome
        rw [if_pos hsome] at hnone
        cases hnone
      intro id hchain
      rcases hchain.cases_head with rfl | ⟨p, hparent, hrest⟩
      · exact hstart
      · have hp : p < start := h start p hparent
        exact ih p hp (by simpa [hstart, hparent, hp] using hnone) id hrest
  · intro hchain
    cases hresolve : env.resolveFrom name start with
    | none => rfl
    | some id =>
      have hnearest := nearest_of_resolveFrom hresolve
      have hfound := hnearest.found
      rw [hchain id hnearest.chain] at hfound
      cases hfound

theorem lookup?_eq_none_iff : env.lookup? name = none ↔ env.resolve name = none := by
  constructor
  · intro hlookup
    cases hresolve : env.resolve name with
    | none => rfl
    | some id =>
      have hfound := (nearest_of_resolveFrom hresolve).found
      have hslot : (env.slotsAt id).find? name = none := by rwa [lookup?, hresolve] at hlookup
      rw [hslot] at hfound
      cases hfound
  · intro hresolve
    rw [lookup?, hresolve]

/-! ## Success and failure -/

theorem find?_store_self (h : (env.slotsAt id).find? name = some slot) :
    ((env.store id name v).slotsAt id).find? name = some { slot with value := some v } := by
  rw [find?_store, if_pos ⟨rfl, rfl⟩, h]
  rfl

/-- After an assignment the name means the variable that it meant before, with the new value. -/
theorem lookup?_store (hid : env.resolve name = some id)
    (hslot : (env.slotsAt id).find? name = some slot) :
    (env.store id name v).lookup? name = some { slot with value := some v } :=
  lookup?_eq_some_iff.mpr ⟨id, by rw [resolve_store, hid], find?_store_self hslot⟩

theorem get_of_lookup? (h : env.lookup? name = some { slot with value := some v }) :
    env.get name = .ok v := by
  rw [get, h]

/-- **Why an assignment fails**: the name means nothing, or what it means cannot be assigned, or it
has another type than the value. -/
theorem assign_eq_error_iff {c : Cause} :
    env.assign name v = .error c ↔
      env.lookup? name = none ∧ c = .undefinedVariable name ∨
      ∃ slot, env.lookup? name = some slot ∧
        ((slot.mutable = false ∨ slot.ty = none) ∧ c = .immutable name ∨
          slot.mutable = true ∧ ∃ ty, slot.ty = some ty ∧ v.ty? ≠ some ty ∧
            c = .assignMismatch name v.quoted v.tag ty) := by
  have heq : ∀ d : Cause, (Except.error d : Except Cause Env) = .error c ↔ c = d := fun d =>
    ⟨fun h => (Except.error.inj h).symm, fun h => h ▸ rfl⟩
  cases hlookup : env.lookup? name with
  | none =>
    rw [assign, lookup?_eq_none_iff.mp hlookup]
    simp [heq]
  | some slot =>
    obtain ⟨id, hid, hslot⟩ := lookup?_eq_some_iff.mp hlookup
    rw [assign, hid]
    simp only [hslot]
    -- The checks are made in this order: mutability, a type at all, the type of the value.
    cases hmut : slot.mutable with
    | false => simp [hmut, heq]
    | true =>
      cases hty : slot.ty with
      | none => simp [hmut, hty, heq]
      | some ty =>
        by_cases hv : v.ty? = some ty
        · simp [hmut, hty, hv]
        · simp [hmut, hty, hv, heq]

end Env

/-- **An assignment writes exactly the variable that reads see, or nothing.** In every environment
that can be built: an assignment succeeds exactly if the name means a mutable variable whose
declared type is that of the value. Then the name reads the value; the variable is the nearest one
of that name, with its type and its mutability as before; and every other variable of every scope,
also of the same name, is as before, as are the scopes. Otherwise the report says that the name is
undefined if no scope on the chain from the current one has it, that it is immutable if the variable
found is immutable or has no type, and else that the types do not fit; and all is as before. -/
theorem assignment_writes_read_slot (env : Env) (henv : env.Built) (name : String) (v : Value) :
    ((∃ env', env.assign name v = .ok env') ↔
      ∃ slot ty, env.lookup? name = some slot ∧ slot.mutable = true ∧ slot.ty = some ty ∧
        v.ty? = some ty) ∧
    (∀ env', env.assign name v = .ok env' →
      env'.get name = .ok v ∧ Env.SameShape env env' ∧
      ∃ id slot, env.resolve name = some id ∧ env.Nearest name env.current id ∧
        env.lookup? name = some slot ∧ (env.slotsAt id).find? name = some slot ∧
        env'.lookup? name = some { slot with value := some v } ∧
        (env'.slotsAt id).find? name = some { slot with value := some v } ∧
        ∀ other key, ¬ (other = id ∧ key = name) →
          (env'.slotsAt other).find? key = (env.slotsAt other).find? key) ∧
    (∀ c, env.assign name v = .error c ↔
      (∀ id, env.Chain env.current id → (env.slotsAt id).find? name = none) ∧
        c = .undefinedVariable name ∨
      ∃ slot, env.lookup? name = some slot ∧
        ((slot.mutable = false ∨ slot.ty = none) ∧ c = .immutable name ∨
          slot.mutable = true ∧ ∃ ty, slot.ty = some ty ∧ v.ty? ≠ some ty ∧
            c = .assignMismatch name v.quoted v.tag ty)) ∧
    ∀ (t : Token) (s : State) (c : Cause), t.lexeme = name → s.env = env →
      env.assign name v = .error c → Action.assign t v s = .stop ⟨c, t.line⟩ s := by
  refine ⟨⟨?_, fun hadmits => ?_⟩, fun env' hok => ?_, fun c => ?_, ?_⟩
  · rintro ⟨env', hok⟩
    exact (Env.assign_eq_ok_iff.mp hok).1
  · obtain ⟨id, -, hok⟩ := Env.assign_of_admits hadmits
    exact ⟨_, hok⟩
  · obtain ⟨⟨slot, ty, hlookup, -⟩, id, hid, rfl⟩ := Env.assign_eq_ok_iff.mp hok
    have hslot : (env.slotsAt id).find? name = some slot := by rwa [Env.lookup?, hid] at hlookup
    have hlookup' := Env.lookup?_store (v := v) hid hslot
    refine ⟨Env.get_of_lookup? hlookup', Env.sameShape_modifySlots env _ id, id, slot, hid,
      Env.nearest_of_resolveFrom hid, hlookup, hslot, hlookup', Env.find?_store_self hslot, ?_⟩
    intro other key hne
    rw [Env.find?_store, if_neg hne]
  · have hnone : env.lookup? name = none ↔
        ∀ id, env.Chain env.current id → (env.slotsAt id).find? name = none :=
      Env.lookup?_eq_none_iff.trans henv.descends.resolveFrom_eq_none_iff
    rw [Env.assign_eq_error_iff, hnone]
  · rintro t s c rfl rfl hc
    unfold Action.assign Action.onEnv
    simp only [hc]

/-- A global variable, a variable of the same name in a scope above it, and a current scope from
which the latter is out of sight. -/
def outOfSight : Env.Opened where
  env :=
    { globals := [("x", ⟨some .int, some (.int 1), true⟩)]
      locals := #[⟨[("x", ⟨some .bool, none, false⟩)], globalScope⟩, ⟨[], globalScope⟩]
      current := 2 }
  kept := [1, 0]

/-- The number is for the global variable, and the other one of that name, which would not take it,
stays as it is. -/
theorem assignment_writes_read_slot_outOfSight :
    outOfSight.env.Built ∧ ∃ env', outOfSight.env.assign "x" (.int 7) = .ok env' ∧
      env'.get "x" = .ok (.int 7) ∧
      (env'.slotsAt globalScope).find? "x" = some ⟨some .int, some (.int 7), true⟩ ∧
      (env'.slotsAt 1).find? "x" = some ⟨some .bool, none, false⟩ := by
  have hbuilt : outOfSight.env.Built := Env.Reachable.built
    ⟨[.declare "x" ⟨some .int, some (.int 1), true⟩, .push globalScope,
      .declare "x" ⟨some .bool, none, false⟩, .push globalScope], rfl⟩
  have hlookup : outOfSight.env.lookup? "x" = some ⟨some .int, some (.int 1), true⟩ := by
    with_unfolding_all rfl
  have hresolve : outOfSight.env.resolve "x" = some globalScope := by with_unfolding_all rfl
  obtain ⟨hsucceeds, hwrites, -⟩ := assignment_writes_read_slot outOfSight.env hbuilt "x" (.int 7)
  obtain ⟨env', hok⟩ := hsucceeds.mpr ⟨_, _, hlookup, rfl, rfl, rfl⟩
  obtain ⟨hget, -, id, slot, hid, -, hslot, -, -, hnew, hothers⟩ := hwrites env' hok
  obtain rfl : id = globalScope := Option.some.inj (hid.symm.trans hresolve)
  obtain rfl : slot = ⟨some .int, some (.int 1), true⟩ := Option.some.inj (hslot.symm.trans hlookup)
  exact ⟨hbuilt, env', hok, hget, hnew, hothers 1 "x" nofun⟩

end Sugod
