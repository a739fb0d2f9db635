import Sugod.Proofs.Change
import Mathlib.Data.List.Induction

/-!
# Balanced stretches of scopes

An environment is used through a few operations: scopes are entered under scopes that exist and left
in stack order, variables are declared, defined, assigned and read, with success or without.
`Op.step?` is what one of them does, on an `Opened` environment, which has with it the numbers that
the scopes still open are to be left with.

* `Reachable.disciplined`: whatever is done, the current scope is the last one, the parent of a
  scope is smaller than the scope, and the walk from parent to parent ends without leaving the
  scopes that exist (`WellFormed.search`).
* `retains_of_run`: between entering a scope and leaving it again, the scopes that were there before
  keep their variables, up to the values that are assigned.

**`balanced_leaves_assignments`** puts the two together.
-/

set_option autoImplicit false

namespace Sugod

/-- What a declaration says of a variable: its type and whether it can be assigned. -/
def Slot.declared (slot : Slot) : Option Ty × Bool :=
  (slot.ty, slot.mutable)

namespace Env

/-! ## Operations -/

/-- An operation on an environment. -/
inductive Op where
  | push (parent : ScopeId)
  | pop
  | declare (name : String) (slot : Slot)
  | defineGlobal (name : String) (v : Value)
  | assign (name : String) (v : Value)
  | get (name : String)
  | lookup (name : String)

/-- An environment with the numbers that were current when the scopes still open were entered, the
last one first. A new one has the global scope only. -/
structure Opened where
  env : Env := {}
  kept : List ScopeId := []

/-- What an operation that may fail leaves: an operation that fails changes nothing. -/
def orSame (env : Env) : Except Cause Env → Env
  | .ok env' => env'
  | .error _ => env

/-- One operation. A scope is entered under a scope that exists, and left with the number that was
current when it was entered; otherwise there is no such operation. -/
def Op.step? (o : Opened) : Op → Option Opened
  | push parent =>
    if parent < o.env.depth then some ⟨o.env.push parent, o.env.current :: o.kept⟩ else none
  | pop =>
    match o.kept with
    | [] => none
    | previous :: kept => some ⟨o.env.pop previous, kept⟩
  | declare name slot => some { o with env := o.env.orSame (o.env.declare name slot) }
  | defineGlobal name v => some { o with env := o.env.defineGlobal name v }
  | assign name v => some { o with env := o.env.orSame (o.env.assign name v) }
  | get _ => some o
  | lookup _ => some o

/-- Operations one after another. -/
def run? (ops : List Op) (o : Opened) : Option Opened :=
  ops.foldlM Op.step? o

theorem run?_append (ops more : List Op) (o : Opened) :
    run? (ops ++ more) o = (run? ops o).bind (run? more) :=
  List.foldlM_append

theorem run?_concat_eq_some (ops : List Op) {op : Op} {o o' : Opened}
    (h : run? (ops ++ [op]) o = some o') :
    ∃ m, run? ops o = some m ∧ op.step? m = some o' := by
  rw [run?_append] at h
  obtain ⟨m, hm, hop⟩ := Option.bind_eq_some_iff.mp h
  exact ⟨m, hm, by simpa [run?] using hop⟩

/-- What operations can make of a new environment. -/
def Reachable (o : Opened) : Prop :=
  ∃ ops, run? ops {} = some o

/-- What an operation can do: enter a scope, leave the last one, add a variable to the current
scope, define a global one, store a value, or nothing. -/
inductive Step : Opened → Op → Opened → Prop
  | push {o : Opened} {parent : ScopeId} (h : parent < o.env.depth) :
      Step o (.push parent) ⟨o.env.push parent, o.env.current :: o.kept⟩
  | pop {env : Env} {previous : ScopeId} {kept : List ScopeId} :
      Step ⟨env, previous :: kept⟩ .pop ⟨env.pop previous, kept⟩
  | declare {o : Opened} {name : String} {slot : Slot} : Step o (.declare name slot)
      ⟨o.env.modifySlots (fun slots => (name, slot) :: slots) o.env.current, o.kept⟩
  | defineGlobal {o : Opened} {name : String} {v : Value} :
      Step o (.defineGlobal name v) ⟨o.env.defineGlobal name v, o.kept⟩
  | assign {o : Opened} {name : String} {v : Value} {id : ScopeId} (admits : o.env.Admits name v)
      (resolved : o.env.resolve name = some id) :
      Step o (.assign name v) ⟨o.env.store id name v, o.kept⟩
  | nothing {o : Opened} {op : Op} (hpush : ∀ parent, op ≠ .push parent) (hpop : op ≠ .pop) :
      Step o op o

theorem step_of_step? {o o' : Opened} {op : Op} (h : op.step? o = some o') : Step o op o' := by
  cases op with
  | push parent =>
    by_cases hparent : parent < o.env.depth
    · rw [Op.step?, if_pos hparent] at h
      cases h
      exact .push hparent
    · rw [Op.step?, if_neg hparent] at h
      cases h
  | pop =>
    obtain ⟨env, kept⟩ := o
    cases kept with
    | nil => cases h
    | cons previous kept =>
      cases h
      exact .pop
  | declare name slot =>
    cases hd : o.env.declare name slot with
    | ok env' =>
      rw [Op.step?, hd] at h
      cases h
      unfold Env.declare at hd
      split at hd
      · cases hd
      · cases hd
        exact .declare
    | error c =>
      rw [Op.step?, hd] at h
      cases h
      exact .nothing (fun _ => nofun) nofun
  | defineGlobal name v =>
    cases h
    exact .defineGlobal
  | assign name v =>
    cases ha : o.env.assign name v with
    | ok env' =>
      rw [Op.step?, ha] at h
      cases h
      obtain ⟨admits, id, resolved, rfl⟩ := assign_eq_ok_iff.mp ha
      exact .assign admits resolved
    | error c =>
      rw [Op.step?, ha] at h
      cases h
      exact .nothing (fun _ => nofun) nofun
  | get name =>
    cases h
    exact .nothing (fun _ => nofun) nofun
  | lookup name =>
    cases h
    exact .nothing (fun _ => nofun) nofun

/-! ## The discipline of the scopes -/

/-- The scopes are well-formed, and the numbers that are kept are those of all scopes below the
current one. -/
structure Opened.Disciplined (o : Opened) : Prop where
  wellFormed : o.env.WellFormed
  kept : o.kept = (List.range o.env.locals.size).reverse

theorem disciplined_new : Opened.Disciplined {} :=
  ⟨wellFormed_empty, rfl⟩

theorem WellFormed.pop {env : Env} (h : env.WellFormed) {n : Nat} (hn : env.locals.size = n + 1) :
    (env.pop n).WellFormed := by
  refine ⟨by simp [Env.pop, hn], fun i scope hs => ?_⟩
  simp only [Env.pop, Array.getElem?_pop] at hs
  split at hs
  · exact h.parent_le i scope hs
  · cases hs

/-- The discipline does not depend on the variables. -/
theorem Opened.Disciplined.modifySlots {o : Opened} (h : o.Disciplined) (f : Slots → Slots)
    (id : ScopeId) : Opened.Disciplined ⟨o.env.modifySlots f id, o.kept⟩ := by
  have hsize : (o.env.modifySlots f id).locals.size = o.env.locals.size :=
    Nat.succ.inj (depth_modifySlots o.env f id)
  refine ⟨h.wellFormed.modifySlots f id, ?_⟩
  rw [hsize]
  exact h.kept

/-- One operation keeps the discipline. -/
theorem Step.disciplined {o o' : Opened} {op : Op} (hstep : Step o op o') (h : o.Disciplined) :
    o'.Disciplined := by
  cases hstep with
  | @push _ parent hparent =>
    refine ⟨h.wellFormed.push hparent, ?_⟩
    have hsize : (o.env.push parent).locals.size = o.env.locals.size + 1 := Array.size_push ..
    rw [hsize, List.range_succ, List.reverse_append, ← h.kept, h.wellFormed.current_eq]
    rfl
  | @pop env previous kept =>
    have hkept : previous :: kept = (List.range env.locals.size).reverse := h.kept
    obtain ⟨n, hn⟩ : ∃ n, env.locals.size = n + 1 := by
      cases hsize : env.locals.size with
      | zero => simp [hsize] at hkept
      | succ n => exact ⟨n, rfl⟩
    rw [hn, List.range_succ, List.reverse_append] at hkept
    obtain ⟨rfl, rfl⟩ := List.cons.inj hkept
    refine ⟨h.wellFormed.pop hn, ?_⟩
    simp [Env.pop, hn]
  | declare => exact h.modifySlots _ _
  | defineGlobal => exact h.modifySlots _ globalScope
  | assign => exact h.modifySlots _ _
  | nothing => exact h

/-- **Whatever is done, the scopes keep their discipline.** -/
theorem Opened.Disciplined.run {o o' : Opened} {ops : List Op} (h : o.Disciplined)
    (hrun : run? ops o = some o') : o'.Disciplined := by
  induction ops using List.reverseRecOn generalizing o' with
  | nil =>
    cases hrun
    exact h
  | append_singleton ops op ih =>
    obtain ⟨m, hm, hop⟩ := run?_concat_eq_some ops hrun
    exact (step_of_step? hop).disciplined (ih hm)

theorem Reachable.disciplined {o : Opened} (h : Reachable o) : o.Disciplined := by
  obtain ⟨ops, hops⟩ := h
  exact disciplined_new.run hops

/-- The walk from a scope to its parent and on, in search of a name. Every scope that it looks at
has to exist. -/
inductive Search (env : Env) (name : String) : Option ScopeId → Option ScopeId → Prop
  | missing : Search env name none none
  | found {id : ScopeId} (hid : id < env.depth)
      (h : ((env.slotsAt id).find? name).isSome = true) : Search env name (some id) (some id)
  | up {id : ScopeId} {r : Option ScopeId} (hid : id < env.depth)
      (h : (env.slotsAt id).find? name = none) (hup : Search env name (env.parent? id) r) :
      Search env name (some id) r

/-- The walk ends inside of the scopes that exist, with what the search for a name gives. -/
theorem WellFormed.search {env : Env} (h : env.WellFormed) (name : String) {id : ScopeId}
    (hid : id < env.depth) : Search env name (some id) (env.resolveFrom name id) := by
  obtain ⟨-, -, hparent⟩ := (wellFormed_iff env).mp h
  induction id using Nat.strongRecOn with
  | ind id ih =>
    rw [resolveFrom_eq]
    cases hslot : (env.slotsAt id).find? name with
    | some slot => exact .found hid (by simp [hslot])
    | none =>
      simp only [Option.isSome_none, Bool.false_eq_true, if_false]
      refine .up hid hslot ?_
      cases id with
      | zero => exact .missing
      | succ i =>
        -- The parent is smaller, so the test that guards the walk never cuts it short.
        obtain ⟨p, hp, hlt⟩ := hparent i hid
        simp only [hp, hlt, if_true]
        exact ih p hlt (Nat.lt_trans hlt hid)

/-! ## Stretches of operations -/

/-- The number of scopes that are open behind an operation, if `n` were open before it. Only these
are left, and nothing is defined globally. -/
def Op.open? (n : Nat) : Op → Option Nat
  | push _ => some (n + 1)
  | pop =>
    match n with
    | 0 => none
    | n + 1 => some n
  | defineGlobal _ _ => none
  | _ => some n

/-- Of the operations, those that enter and those that leave scopes belong together in pairs. -/
def Balanced (ops : List Op) : Prop :=
  ops.foldlM Op.open? 0 = some 0

/-- Among the operations, begun in `o`, there is an assignment that succeeds and whose name means
the variable of the scope. -/
def AssignedIn (ops : List Op) (o : Opened) (id : ScopeId) (name : String) : Prop :=
  ∃ before v after m env', ops = before ++ .assign name v :: after ∧ run? before o = some m ∧
    m.env.resolve name = some id ∧ m.env.assign name v = .ok env'

theorem AssignedIn.append {ops : List Op} {o : Opened} {id : ScopeId} {name : String}
    (h : AssignedIn ops o id name) (more : List Op) : AssignedIn (ops ++ more) o id name := by
  obtain ⟨before, v, after, m, env', rfl, hrest⟩ := h
  exact ⟨before, v, after ++ more, m, env', by simp, hrest⟩

/-- The operations keep the scopes of `o`: their parents, and their variables up to values that are
assigned. -/
structure Retains (o : Opened) (ops : List Op) (o' : Opened) : Prop where
  depth_le : o.env.depth ≤ o'.env.depth
  parent : ∀ id, id < o.env.depth → o'.env.parent? id = o.env.parent? id
  slots : ∀ id name, id < o.env.depth →
    (o'.env.slotsAt id).find? name = (o.env.slotsAt id).find? name ∨
    ∃ slot v, (o.env.slotsAt id).find? name = some slot ∧
      (o'.env.slotsAt id).find? name = some { slot with value := some v } ∧
      slot.mutable = true ∧ AssignedIn ops o id name

theorem retains_nil (o : Opened) : Retains o [] o :=
  ⟨Nat.le_refl _, fun _ _ => rfl, fun _ _ _ => .inl rfl⟩

theorem Retains.slots_append {o m : Opened} {ops : List Op} (h : Retains o ops m) (more : List Op)
    {id : ScopeId} (hid : id < o.env.depth) (name : String) :
    (m.env.slotsAt id).find? name = (o.env.slotsAt id).find? name ∨
    ∃ slot v, (o.env.slotsAt id).find? name = some slot ∧
      (m.env.slotsAt id).find? name = some { slot with value := some v } ∧
      slot.mutable = true ∧ AssignedIn (ops ++ more) o id name := by
  rcases h.slots id name hid with hsame | ⟨slot, v, hold, hnew, hmut, hassigned⟩
  · exact .inl hsame
  · exact .inr ⟨slot, v, hold, hnew, hmut, hassigned.append more⟩

/-- An operation that leaves the scopes of `o` alone keeps them. -/
theorem Retains.same {o m o' : Opened} {ops : List Op} (h : Retains o ops m) (op : Op)
    (hdepth : o.env.depth ≤ o'.env.depth)
    (hparent : ∀ id, id < o.env.depth → o'.env.parent? id = m.env.parent? id)
    (hslots : ∀ id, id < o.env.depth → o'.env.slotsAt id = m.env.slotsAt id) :
    Retains o (ops ++ [op]) o' := by
  refine ⟨hdepth, fun id hid => (hparent id hid).trans (h.parent id hid), fun id name hid => ?_⟩
  rw [hslots id hid]
  exact h.slots_append [op] hid name

/-- An assignment gives one variable, which is mutable, a new value. -/
theorem Retains.slots_store {o m : Opened} {ops : List Op} {name key : String} {v : Value}
    {target id : ScopeId} (h : Retains o ops m) (hrun : run? ops o = some m)
    (admits : m.env.Admits name v) (resolved : m.env.resolve name = some target)
    (hid : id < o.env.depth) :
    ((m.env.store target name v).slotsAt id).find? key = (o.env.slotsAt id).find? key ∨
    ∃ slot w, (o.env.slotsAt id).find? key = some slot ∧
      ((m.env.store target name v).slotsAt id).find? key = some { slot with value := some w } ∧
      slot.mutable = true ∧ AssignedIn (ops ++ [.assign name v]) o id key := by
  rw [find?_store]
  by_cases hhere : id = target ∧ key = name
  · obtain ⟨rfl, rfl⟩ := hhere
    have hok := assign_eq_ok_iff.mpr ⟨admits, id, resolved, rfl⟩
    have hassigned : AssignedIn (ops ++ [.assign key v]) o id key :=
      ⟨ops, v, [], m, _, rfl, hrun, resolved, hok⟩
    obtain ⟨slot, ty, hlookup, hmut, -⟩ := admits
    have hslot : (m.env.slotsAt id).find? key = some slot := by
      rwa [lookup?, resolved] at hlookup
    rw [if_pos ⟨rfl, rfl⟩, hslot]
    right
    -- The variable is one of `o`, perhaps with a value from an assignment before this one.
    rcases h.slots id key hid with hsame | ⟨old, w, hold, hnew, holdmut, -⟩
    · exact ⟨slot, v, hsame ▸ hslot, rfl, hmut, hassigned⟩
    · rw [hslot] at hnew
      obtain rfl := Option.some.inj hnew
      exact ⟨old, v, hold, rfl, holdmut, hassigned⟩
  · rw [if_neg hhere]
    exact h.slots_append _ hid key

/-- A further scope keeps the scopes of `o`. -/
theorem Retains.push {o m : Opened} {ops : List Op} (h : Retains o ops m) (parent : ScopeId)
    (kept : List ScopeId) : Retains o (ops ++ [.push parent]) ⟨m.env.push parent, kept⟩ := by
  refine h.same _ ?_ (fun id hid => parent?_push_of_lt ?_) fun id _ => slotsAt_push _ _ _
  · rw [depth_push]
    exact Nat.le_succ_of_le h.depth_le
  · exact Nat.lt_of_lt_of_le hid h.depth_le

/-- One operation inside of a scope that was entered after `o` keeps the scopes of `o`. -/
theorem Retains.step {o m o' : Opened} {ops : List Op} {op : Op} (h : Retains o ops m)
    (hm : m.Disciplined) (hrun : run? ops o = some m) (hinside : o.env.depth < m.env.depth)
    (hop : ∀ name v, op ≠ .defineGlobal name v) (hstep : op.step? m = some o') :
    Retains o (ops ++ [op]) o' := by
  cases step_of_step? hstep with
  | @push _ parent _ => exact h.push parent _
  | @pop env previous kept =>
    -- The scope that is left came after those of `o`.
    obtain ⟨d, hd⟩ : ∃ d, env.depth = d + 2 := ⟨env.depth - 2, by
      have hpos : 0 < o.env.depth := Nat.succ_pos _
      simp only at hinside
      omega⟩
    have hbelow : ∀ id, id < o.env.depth → id + 1 < env.depth := fun id hid =>
      Nat.lt_of_le_of_lt hid hinside
    refine h.same _ ?_ (fun id hid => parent?_pop_of_lt previous (hbelow id hid)) fun id hid =>
      slotsAt_pop_of_lt previous (hbelow id hid)
    simp only [depth_pop previous hd]
    simp only at hinside
    omega
  | declare =>
    -- The current scope is the last one, so it came after those of `o` too.
    have hcurrent : m.env.current = m.env.locals.size := hm.wellFormed.current_eq
    refine h.same _ ?_ (fun id _ => parent?_modifySlots _ _ _ _) fun id hid =>
      slotsAt_modifySlots_ne ?_
    · rw [depth_modifySlots]
      exact h.depth_le
    · rw [hcurrent]
      exact Nat.ne_of_lt (Nat.lt_of_lt_of_le hid (Nat.le_of_lt_succ hinside))
  | @defineGlobal _ name v => exact absurd rfl (hop name v)
  | @assign _ name v target admits resolved =>
    refine ⟨?_, fun id hid => ?_, fun id key hid => ?_⟩
    · rw [depth_store]
      exact h.depth_le
    · rw [parent?_store]
      exact h.parent id hid
    · exact h.slots_store hrun admits resolved hid
  | nothing => exact h.same op h.depth_le (fun _ _ => rfl) fun _ _ => rfl

/-- The depth counts the scopes that are open. -/
theorem depth_of_open? {m m' : Opened} {op : Op} {d n k : Nat} (hd : 0 < d)
    (hstep : op.step? m = some m') (hopen : op.open? n = some k) (hdepth : m.env.depth = d + n) :
    m'.env.depth = d + k := by
  cases step_of_step? hstep with
  | push _ =>
    cases hopen
    rw [depth_push, hdepth]
    rfl
  | @pop env previous kept =>
    cases n with
    | zero => cases hopen
    | succ n =>
      cases hopen
      have hdepth : env.depth = (d + k - 1) + 2 := by
        simp only at hdepth
        omega
      simp only [depth_pop previous hdepth]
      omega
  | declare =>
    cases hopen
    rw [depth_modifySlots, hdepth]
  | defineGlobal => cases hopen
  | assign =>
    cases hopen
    rw [depth_store, hdepth]
  | nothing hpush hpop =>
    cases op with
    | push parent => exact absurd rfl (hpush parent)
    | pop => exact absurd rfl hpop
    | defineGlobal => cases hopen
    | _ => cases hopen; exact hdepth

/-- Behind the operation that enters a scope and any further ones that leave it open, the scopes
from before are kept. -/
theorem retains_of_run {o m : Opened} {parent : ScopeId} {ops : List Op} {k : Nat}
    (ho : o.Disciplined) (hopen : ops.foldlM Op.open? 0 = some k)
    (hrun : run? (.push parent :: ops) o = some m) :
    m.env.depth = o.env.depth + 1 + k ∧ Retains o (.push parent :: ops) m := by
  -- The last operation is taken off, because what the others leave open decides what it does.
  induction ops using List.reverseRecOn generalizing m k with
  | nil =>
    cases hopen
    obtain ⟨o', ho', hstep⟩ := run?_concat_eq_some [] hrun
    cases ho'
    cases step_of_step? hstep with
    | push _ => exact ⟨depth_push _ _, (retains_nil o).push parent _⟩
    | nothing hpush _ => exact absurd rfl (hpush parent)
  | append_singleton ops op ih =>
    rw [List.foldlM_append] at hopen
    obtain ⟨n, hn, hop⟩ := Option.bind_eq_some_iff.mp hopen
    replace hop : op.open? n = some k := by simpa using hop
    obtain ⟨mid, hmid, hstep⟩ := run?_concat_eq_some (.push parent :: ops) hrun
    obtain ⟨hdepth, hretains⟩ := ih hn hmid
    refine ⟨depth_of_open? (Nat.succ_pos _) hstep hop hdepth, ?_⟩
    refine hretains.step (ho.run hmid) hmid (by omega) (fun name v => ?_) hstep
    rintro rfl
    cases hop

/-- Behind a scope that was entered and left again there are as many scopes as before, and they are
kept. -/
theorem retains_of_balanced {o o' : Opened} {parent : ScopeId} {inner : List Op}
    (ho : o.Disciplined) (hinner : Balanced inner)
    (hrun : run? (.push parent :: (inner ++ [.pop])) o = some o') :
    o'.env.depth = o.env.depth ∧ Retains o (.push parent :: (inner ++ [.pop])) o' := by
  obtain ⟨m, hm, hpop⟩ := run?_concat_eq_some (.push parent :: inner) hrun
  obtain ⟨hdepth, hretains⟩ := retains_of_run ho hinner hm
  refine ⟨depth_of_open? (d := o.env.depth) (n := 1) (Nat.succ_pos _) hpop rfl hdepth, ?_⟩
  exact hretains.step (ho.run hm) hm (by omega) (fun _ _ => nofun) hpop

section Kept

variable {o o' : Opened} {ops : List Op} (h : Retains o ops o')
  (hdepth : o'.env.depth = o.env.depth)

include h hdepth

theorem Retains.parent?_eq (id : ScopeId) : o'.env.parent? id = o.env.parent? id := by
  by_cases hid : id < o.env.depth
  · exact h.parent id hid
  · rw [parent?_of_depth_le (Nat.le_of_not_lt hid),
      parent?_of_depth_le (by rw [hdepth]; exact Nat.le_of_not_lt hid)]

/-- Each variable is as before, or it is mutable and has been given another value. -/
theorem Retains.find?_cases (id : ScopeId) (name : String) :
    (o'.env.slotsAt id).find? name = (o.env.slotsAt id).find? name ∨
    ∃ slot v, (o.env.slotsAt id).find? name = some slot ∧
      (o'.env.slotsAt id).find? name = some { slot with value := some v } ∧
      slot.mutable = true ∧ AssignedIn ops o id name := by
  by_cases hid : id < o.env.depth
  · exact h.slots id name hid
  · left
    rw [slotsAt_of_depth_le (Nat.le_of_not_lt hid),
      slotsAt_of_depth_le (by rw [hdepth]; exact Nat.le_of_not_lt hid)]

theorem Retains.declared_eq (id : ScopeId) (name : String) :
    ((o'.env.slotsAt id).find? name).map Slot.declared =
      ((o.env.slotsAt id).find? name).map Slot.declared := by
  rcases h.find?_cases hdepth id name with hsame | ⟨slot, v, hold, hnew, -⟩
  · rw [hsame]
  · rw [hold, hnew]
    rfl

theorem Retains.assigned_of_ne {id : ScopeId} {name : String} {slot slot' : Slot}
    (hold : (o.env.slotsAt id).find? name = some slot)
    (hnew : (o'.env.slotsAt id).find? name = some slot') (hne : slot'.value ≠ slot.value) :
    slot.mutable = true ∧ AssignedIn ops o id name := by
  rcases h.find?_cases hdepth id name with hsame | ⟨old, v, hfound, -, hmut, hassigned⟩
  · rw [hsame, hold] at hnew
    obtain rfl := Option.some.inj hnew
    exact absurd rfl hne
  · rw [hold] at hfound
    obtain rfl := Option.some.inj hfound
    exact ⟨hmut, hassigned⟩

end Kept

end Env

/-- **A balanced stretch of operations leaves only assignments behind.** In every environment that
operations can make of a new one, the current scope is the last one, the parent of every scope but
the global one is smaller, and the walk along the parents ends inside of the scopes that exist with
what the search for a name gives. Between entering a scope and leaving it again, whatever is
entered, left, declared, assigned and read in between: the scopes and the current one are as before,
every scope has the same names with the same types and the same mutability, so that every name means
what it meant, and a value differs only in a mutable variable to which an assignment in between was
made. -/
theorem balanced_leaves_assignments (o : Env.Opened) (ho : Env.Reachable o) :
    (o.env.current + 1 = o.env.depth ∧ o.env.parent? globalScope = none ∧
      (∀ i, i + 1 < o.env.depth → ∃ p, o.env.parent? (i + 1) = some p ∧ p < i + 1) ∧
      ∀ name, Env.Search o.env name (some o.env.current) (o.env.resolve name)) ∧
    ∀ parent inner o', Env.Balanced inner →
      Env.run? (.push parent :: (inner ++ [.pop])) o = some o' →
      o'.env.depth = o.env.depth ∧ o'.env.current = o.env.current ∧ o'.kept = o.kept ∧
      (∀ id, o'.env.parent? id = o.env.parent? id) ∧
      (∀ id name, ((o'.env.slotsAt id).find? name).map Slot.declared =
        ((o.env.slotsAt id).find? name).map Slot.declared) ∧
      (∀ name, o'.env.resolve name = o.env.resolve name) ∧
      ∀ id name slot slot', (o.env.slotsAt id).find? name = some slot →
        (o'.env.slotsAt id).find? name = some slot' → slot'.value ≠ slot.value →
        slot.mutable = true ∧
          Env.AssignedIn (.push parent :: (inner ++ [.pop])) o id name := by
  have hdisciplined := ho.disciplined
  obtain ⟨hlast, hglobal, hparents⟩ := (Env.wellFormed_iff o.env).mp hdisciplined.wellFormed
  refine ⟨⟨hlast, hglobal, hparents, fun name => ?_⟩, ?_⟩
  · exact hdisciplined.wellFormed.search name (Nat.lt_of_succ_le (Nat.le_of_eq hlast))
  · intro parent inner o' hinner hrun
    obtain ⟨hdepth, hretains⟩ := Env.retains_of_balanced hdisciplined hinner hrun
    have hdisciplined' := hdisciplined.run hrun
    have hsize : o'.env.locals.size = o.env.locals.size := Nat.succ.inj hdepth
    have hcurrent : o'.env.current = o.env.current := by
      rw [hdisciplined'.wellFormed.current_eq, hsize, hdisciplined.wellFormed.current_eq]
    have hkept : o'.kept = o.kept := by rw [hdisciplined'.kept, hsize, hdisciplined.kept]
    have hdeclared := hretains.declared_eq hdepth
    refine ⟨hdepth, hcurrent, hkept, hretains.parent?_eq hdepth, hdeclared, fun name => ?_, ?_⟩
    · unfold Env.resolve
      rw [hcurrent]
      refine Env.resolveFrom_congr (fun id => ?_) (hretains.parent?_eq hdepth) _
      rw [← Option.isSome_map (f := Slot.declared), hdeclared, Option.isSome_map]
    · exact fun id name slot slot' => hretains.assigned_of_ne hdepth

/-- An environment with one variable, which is mutable. -/
def counterAt (n : Int64) : Env.Opened :=
  ⟨{ globals := [("x", ⟨some .int, some (.int n), true⟩)] }, []⟩

/-- A variable of the same name is declared. In a scope that hangs off the global one it is out of
sight, so that the first assignment is to the global variable and only the second one to it. -/
def shadowing : List Env.Op :=
  [.declare "x" ⟨some .int, some (.int 5), true⟩, .push globalScope, .assign "x" (.int 2), .pop,
    .assign "x" (.int 3)]

theorem balanced_leaves_assignments_shadowing :
    Env.Reachable (counterAt 1) ∧ Env.Balanced shadowing ∧
    Env.run? (.push globalScope :: (shadowing ++ [.pop])) (counterAt 1) = some (counterAt 2) ∧
    (counterAt 2).env.resolve "x" = (counterAt 1).env.resolve "x" ∧
    Env.AssignedIn (.push globalScope :: (shadowing ++ [.pop])) (counterAt 1) globalScope "x" := by
  have hreachable : Env.Reachable (counterAt 1) :=
    ⟨[.declare "x" ⟨some .int, some (.int 1), true⟩], rfl⟩
  have hbalanced : Env.Balanced shadowing := rfl
  have hrun : Env.run? (.push globalScope :: (shadowing ++ [.pop])) (counterAt 1) =
      some (counterAt 2) := by
    with_unfolding_all rfl
  have hstretch := (balanced_leaves_assignments (counterAt 1) hreachable).2 _ _ _ hbalanced hrun
  obtain ⟨-, -, -, -, -, hresolve, hassigned⟩ := hstretch
  exact ⟨hreachable, hbalanced, hrun, hresolve "x",
    (hassigned globalScope "x" _ _ rfl rfl (by simp)).2⟩

end Sugod
