import Sugod.Proofs.History
import Sugod.Proofs.Points

/-!
# Slots are permanent

A name that has been declared stays declared as long as its scope exists, with its type and its
mutability, and an immutable slot keeps its value. The main statement of this module,
`slots_permanent`, says so for every way in which an expression or a statement ends, and says where
new names can appear: an expression adds none to the scopes that were there, a statement adds them
to its own scope only. Over a session, built-in functions, user functions and constants therefore
never change.
-/

set_option autoImplicit false

namespace Sugod

/-- The slot `new` is what can become of the slot `old`: the declaration is the same, an immutable
slot is not assigned, and a value is never taken away. -/
structure Slot.Keeps (old new : Slot) : Prop where
  ty : new.ty = old.ty
  mutable : new.mutable = old.mutable
  immutable : old.mutable = false → new.value = old.value
  assigned : old.value.isSome → new.value.isSome

namespace Slot.Keeps

theorem refl (slot : Slot) : slot.Keeps slot :=
  ⟨rfl, rfl, fun _ => rfl, fun h => h⟩

theorem trans {a b c : Slot} (hab : a.Keeps b) (hbc : b.Keeps c) : a.Keeps c where
  ty := hbc.ty.trans hab.ty
  mutable := hbc.mutable.trans hab.mutable
  immutable h := (hbc.immutable (hab.mutable.trans h)).trans (hab.immutable h)
  assigned h := hbc.assigned (hab.assigned h)

/-- An immutable slot never changes. -/
theorem eq_of_immutable {old new : Slot} (h : old.Keeps new) (hm : old.mutable = false) :
    new = old := by
  obtain ⟨ty, value, mutable⟩ := new
  obtain rfl : ty = old.ty := h.ty
  obtain rfl : mutable = old.mutable := h.mutable
  obtain rfl : value = old.value := h.immutable hm
  rfl

end Slot.Keeps

namespace Env

/-- Every slot of every scope is still there, with what it has to keep. -/
def Keeps (env env' : Env) : Prop :=
  ∀ id name slot, (env.slotsAt id).find? name = some slot →
    ∃ new, (env'.slotsAt id).find? name = some new ∧ slot.Keeps new

/-- A scope has got no new name. -/
def NoNewName (env env' : Env) (id : ScopeId) : Prop :=
  ∀ name, (env.slotsAt id).find? name = none → (env'.slotsAt id).find? name = none

theorem Keeps.refl (env : Env) : env.Keeps env :=
  fun _ _ slot h => ⟨slot, h, .refl slot⟩

theorem Keeps.trans {a b c : Env} (hab : a.Keeps b) (hbc : b.Keeps c) : a.Keeps c := by
  intro id name slot h
  obtain ⟨mid, hmid, hkeep⟩ := hab id name slot h
  obtain ⟨new, hnew, hkeep'⟩ := hbc id name mid hmid
  exact ⟨new, hnew, hkeep.trans hkeep'⟩

/-! ## Writes -/

/-- A write keeps all slots: the one that it changes is mutable and gets a value. -/
theorem Write.keeps {env env' : Env} (h : Write env env') : env.Keeps env' := by
  obtain ⟨found, hmut, -, -⟩ := h
  rename_i id name target ty v
  intro other key slot hslot
  rcases slotsAt_modifySlots_cases env (Slots.setValue name v) id other with ⟨rfl, hs⟩ | hs
  · rw [hs, Slots.find?_setValue]
    by_cases hkey : key = name
    · subst hkey
      rw [found] at hslot
      obtain rfl := Option.some.inj hslot
      have hkeep : target.Keeps { target with value := some v } :=
        ⟨rfl, rfl, fun himm => absurd (hmut.symm.trans himm) (by simp), fun _ => rfl⟩
      exact ⟨_, by rw [if_pos rfl, found]; rfl, hkeep⟩
    · rw [if_neg hkey]
      exact ⟨slot, hslot, .refl slot⟩
  · rw [hs]
    exact ⟨slot, hslot, .refl slot⟩

/-- A write adds no name. -/
theorem Write.noNewName {env env' : Env} (h : Write env env') (id : ScopeId) :
    env.NoNewName env' id := by
  obtain ⟨found, -, -, -⟩ := h
  rename_i target name slot ty v
  intro key hkey
  rcases slotsAt_modifySlots_cases env (Slots.setValue name v) target id with ⟨rfl, hs⟩ | hs
  · have hsome := Slots.isSome_find?_setValue name v (env.slotsAt id) key
    rw [hs]
    rw [hkey] at hsome
    exact Option.not_isSome_iff_eq_none.mp (by rw [hsome]; simp)
  · rw [hs]
    exact hkey

theorem Writes.noNewName {env env' : Env} (h : Writes env env') (id : ScopeId) :
    env.NoNewName env' id := by
  induction h with
  | refl => exact fun _ hname => hname
  | tail _ hstep ih => exact fun name hname => hstep.noNewName id name (ih name hname)

/-! ## Changes -/

/-- A new slot stands under a new name, so it hides no other one. -/
theorem Change.keeps {env env' : Env} (h : Change env env') : env.Keeps env' := by
  cases h with
  | write hw => exact hw.keeps
  | @add name slot fresh typed =>
    intro other key old hold
    refine ⟨old, ?_, .refl old⟩
    rcases slotsAt_modifySlots_cases env (fun slots => (name, slot) :: slots) env.current other with
      ⟨rfl, hs⟩ | hs
    · -- The name of the new slot was free, so it is another one.
      have hne : key ≠ name := by
        rintro rfl
        rw [fresh] at hold
        cases hold
      rw [hs, Slots.find?_cons, if_neg hne]
      exact hold
    · rw [hs]
      exact hold

theorem Change.noNewName {env env' : Env} (h : Change env env') {id : ScopeId}
    (hid : id ≠ env.current) : env.NoNewName env' id := by
  cases h with
  | write hw => exact hw.noNewName id
  | add fresh typed =>
    intro key hkey
    rw [slotsAt_modifySlots_ne hid]
    exact hkey

theorem Changes.noNewName {env env' : Env} (h : Changes env env') {id : ScopeId}
    (hid : id ≠ env.current) : env.NoNewName env' id := by
  induction h with
  | refl => exact fun _ hname => hname
  | tail hsteps hstep ih =>
    intro name hname
    -- The current scope is the same all along, so new names go to one scope only.
    have hcurrent := (Changes.sameShape hsteps).current
    exact hstep.noNewName (by rw [hcurrent]; exact hid) name (ih name hname)

/-- All slots are kept wherever a run gets to. -/
theorem Advances.keeps {env env' : Env} (h : Advances env env') : env.Keeps env' := by
  induction h with
  | refl => exact .refl env
  | tail _ hstep ih =>
    refine ih.trans ?_
    cases hstep with
    | change hc => exact hc.keeps
    | enter parent =>
      intro id name slot hslot
      exact ⟨slot, by rw [slotsAt_push]; exact hslot, .refl slot⟩

/-- An immutable global slot is the same wherever a run gets to. -/
theorem Advances.constant {env env' : Env} (h : Advances env env') {name : String} {slot : Slot}
    (hslot : env.globals.find? name = some slot) (hm : slot.mutable = false) :
    env'.globals.find? name = some slot := by
  obtain ⟨new, hnew, hkeep⟩ := h.keeps globalScope name slot hslot
  rw [hkeep.eq_of_immutable hm] at hnew
  exact hnew

end Env

theorem Session.find?_initialEnv (b : Builtin) :
    initialEnv.globals.find? b.name = some ⟨none, some (.builtin b), false⟩ := by
  cases b <;> rfl

/-- **Slots are permanent.** Whatever way an expression or a statement ends, all slots are kept; an
expression adds no name to any scope that there was, a statement adds names to its own scope only.
From any moment of a session on, an immutable global variable stays as it is, between programs and
in every state that a program passes; so the built-in functions are always found under their
names. -/
theorem slots_permanent :
    (∀ (n : Nat) (e : Expr) (s s' : State), (Eval.expr n e s).after? = some s' →
      s.env.Keeps s'.env ∧ ∀ id, s.env.NoNewName s'.env id) ∧
    (∀ (n : Nat) (st : Stmt) (s s' : State), (Eval.stmt n st s).after? = some s' →
      s.env.Keeps s'.env ∧ ∀ id, id ≠ s.env.current → s.env.NoNewName s'.env id) ∧
    (∀ session later : Session, session.Later later → ∀ (name : String) (slot : Slot),
      session.env.globals.find? name = some slot → slot.mutable = false →
      later.env.globals.find? name = some slot ∧
      ∀ (program : Program) (st : State), Eval.Passes (.stmts program) later.state st →
        st.env.globals.find? name = some slot) ∧
    (∀ session : Session, session.Reachable → ∀ b : Builtin,
      session.env.global? b.name = some (.builtin b)) := by
  refine ⟨?_, ?_, ?_, ?_⟩
  · intro n e s s' h
    have hwrites := (Eval.expr_affects n e s s' h).1
    exact ⟨(Env.Changes.advances (Env.Writes.changes hwrites)).keeps,
      Env.Writes.noNewName hwrites⟩
  · intro n st s s' h
    have hchanges := (Eval.stmt_affects n st s s' h).1
    exact ⟨(Env.Changes.advances hchanges).keeps, fun id hid => Env.Changes.noNewName hchanges hid⟩
  · intro session later hlater name slot hslot hm
    have hadvances : Env.Advances session.env later.env :=
      Env.Changes.advances (Session.Later.changes hlater)
    refine ⟨hadvances.constant hslot hm, fun program st hpass => ?_⟩
    exact Env.Advances.constant (hadvances.trans hpass.advances) hslot hm
  · intro session hreach b
    have hfound := (Env.Changes.advances hreach.changes).constant (Session.find?_initialEnv b) rfl
    unfold Env.global?
    rw [hfound]

/-- A declaration of `k`. -/
def declareK (n : Int64) (mutable : Bool) : Program :=
  [.declare ⟨.identifier "k", "k", 1⟩ .int (some (.literal (.int n) 1)) mutable]

/-- A session behind a program that declares `k` as a constant. -/
def withK : Session where
  env :=
    { Session.initialEnv with
      globals := ("k", ⟨some .int, some (.int 1), false⟩) :: Session.initialEnv.globals }
  console := { writes := [acknowledgement] }

/-- A constant that a second program declares again, which fails, is still the first one, and the
built-in functions are what they were. -/
theorem slots_permanent_declareK :
    ∃ later, withK.interpret 6 (declareK 2 true) =
        some (.error ⟨.alreadyDeclared "k", 1⟩, later) ∧
      later.env.globals.find? "k" = some ⟨some .int, some (.int 1), false⟩ ∧
      later.env.global? "sqrt" = some (.builtin .sqrt) := by
  have hfirst : (Session.start {}).interpret 6 (declareK 1 false) = some (.ok (), withK) := rfl
  have hsecond : withK.interpret 6 (declareK 2 true) =
      some (.error ⟨.alreadyDeclared "k", 1⟩, withK) := rfl
  have hlater : withK.Later withK := .single (.interpret 6 (declareK 2 true) _ hsecond)
  have hreach : withK.Reachable := ⟨{}, .head (.interpret 6 (declareK 1 false) _ hfirst) hlater⟩
  exact ⟨withK, hsecond, (slots_permanent.2.2.1 _ _ hlater "k" _ rfl rfl).1,
    slots_permanent.2.2.2 withK hreach .sqrt⟩

end Sugod
