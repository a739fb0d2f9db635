import Sugod.Session
import Sugod.Proofs.Effect

/-!
# Histories of a session

A session goes on from one program to the next, whether they succeed or fail. This module says what
a step of a session is, how it ends (`Session.run_cases`, `Session.interpret_cases`) and what a
session can come to, and shows that over any stretch of a session the environment changes only as by
one long list of statements (`Session.Later.changes`).
-/

set_option autoImplicit false

namespace Sugod

/-- A write succeeds, or it fails as a write. -/
theorem Console.write_outcome (c : Console) (text : String) :
    (∃ c', c.write text = (.ok (), c')) ∨ ∃ c', c.write text = (.error .write, c') := by
  unfold write
  split
  · exact .inl ⟨_, rfl⟩
  · exact .inr ⟨_, rfl⟩
  · exact .inl ⟨_, rfl⟩

namespace Session

/-- One step of a session. A source is run or a program is executed, and this has ended in some way;
or the console is changed from outside: lines are queued, output is taken, reads or writes begin to
fail. -/
inductive Step : Session → Session → Prop
  | run {s s' : Session} (steps : Nat) (source : String) (result : Except RunError Unit)
      (h : s.run steps source = some (result, s')) : Step s s'
  | interpret {s s' : Session} (steps : Nat) (program : Program) (result : Except Fault Unit)
      (h : s.interpret steps program = some (result, s')) : Step s s'
  | console (s : Session) (console : Console) : Step s { s with console := console }

/-- The second session comes after the first one by any number of steps. -/
abbrev Later : Session → Session → Prop :=
  Relation.ReflTransGen Step

/-- A session that comes after a new one, on any console. -/
def Reachable (s : Session) : Prop :=
  ∃ console, Later (start console) s

@[simp] theorem env_acknowledge (st : State) : (acknowledge st).2.env = st.env := by
  unfold acknowledge
  split
  · rfl
  · split <;> rfl

/-! ## How a run ends -/

/-- Only a write that fails keeps a program that has ended from being acknowledged. -/
theorem of_acknowledge_eq_error {st : State} {f : Fault} {s : Session}
    (h : acknowledge st = (.error f, s)) : f = ⟨.console .write, 0⟩ ∧ st.displayed = false ∧
      (st.console.write acknowledgement).1 = .error .write := by
  unfold acknowledge at h
  by_cases hshown : st.displayed = true
  · rw [if_pos hshown] at h
    cases h
  · rw [if_neg hshown] at h
    rcases st.console.write_outcome acknowledgement with ⟨c, hw⟩ | ⟨c, hw⟩
    · rw [hw] at h
      cases h
    · rw [hw] at h ⊢
      cases h
      exact ⟨rfl, eq_false_of_ne_true hshown, rfl⟩

/-- A program that is executed is done and is acknowledged, or it stops. -/
theorem interpret_cases {steps : Nat} {program : Program} {s s' : Session}
    {result : Except Fault Unit} (h : s.interpret steps program = some (result, s')) :
    (∃ st, Eval.stmts steps program s.state = .done () st ∧ acknowledge st = (result, s')) ∨
    ∃ i st, Eval.stmts steps program s.state = .stop i st ∧ result = .error i.toFault ∧
      s' = ofState st := by
  unfold interpret at h
  cases hr : Eval.stmts steps program s.state with
  | done u st =>
    rw [hr] at h
    exact .inl ⟨st, rfl, Option.some.inj h⟩
  | stop i st =>
    rw [hr] at h
    cases h
    exact .inr ⟨i, st, rfl, rfl, rfl⟩
  | spent =>
    rw [hr] at h
    cases h

/-- A source that is run has errors of scanning, or an error of parsing, or it is a program and is
executed. -/
theorem run_cases {steps : Nat} {source : String} {s s' : Session}
    {result : Except RunError Unit} (h : s.run steps source = some (result, s')) :
    (∃ errors, result = .error (.scan errors) ∧ s' = s) ∨
    (∃ e, Grammar.parse (Scan.ofSource source).tokens = .error e ∧
      result = .error (.parse e) ∧ s' = s) ∨
    ∃ program outcome, Grammar.parse (Scan.ofSource source).tokens = .ok program ∧
      read source = .ok program ∧ s.interpret steps program = some (outcome, s') ∧
      result = outcome.mapError .fault := by
  unfold run read at h
  by_cases hscan : (Scan.ofSource source).errors.isEmpty = true
  · cases hparse : Grammar.parse (Scan.ofSource source).tokens with
    | error e =>
      simp only [hscan, hparse, if_true] at h
      cases h
      exact .inr (.inl ⟨e, rfl, rfl, rfl⟩)
    | ok program =>
      have hread : read source = .ok program := by
        simp only [read, hscan, hparse, if_true]
      simp only [hscan, hparse, if_true] at h
      split at h
      · cases h
      · rename_i mid hint
        cases h
        exact .inr (.inr ⟨program, .ok (), rfl, hread, hint, rfl⟩)
      · rename_i f mid hint
        cases h
        exact .inr (.inr ⟨program, .error f, rfl, hread, hint, rfl⟩)
  · simp only [hscan, Bool.false_eq_true, if_false] at h
    cases h
    exact .inl ⟨_, rfl, rfl⟩

/-! ## Changes of the variables -/

/-- Executing a program changes the variables as its statements do. -/
theorem interpret_changes {steps : Nat} {program : Program} {s s' : Session}
    {result : Except Fault Unit} (h : s.interpret steps program = some (result, s')) :
    Env.Changes s.env s'.env := by
  have affects := Eval.stmts_affects steps program s.state
  rcases interpret_cases h with ⟨st, hr, hack⟩ | ⟨i, st, hr, -, rfl⟩
  · -- The acknowledgement is written to the console and leaves the variables alone.
    have hs' : (acknowledge st).2 = s' := congrArg Prod.snd hack
    rw [← hs', env_acknowledge]
    exact (affects st (by rw [hr]; rfl)).1
  · exact (affects st (by rw [hr]; rfl)).1

theorem Step.changes {s s' : Session} (h : Step s s') : Env.Changes s.env s'.env := by
  cases h with
  | run steps source result h =>
    rcases run_cases h with ⟨_, -, rfl⟩ | ⟨_, -, -, rfl⟩ | ⟨program, outcome, -, -, hint, -⟩
    · exact .refl
    · exact .refl
    · exact interpret_changes hint
  | interpret steps program result h => exact interpret_changes h
  | console console => exact .refl

/-- **Over any stretch of a session the variables only change by writes and declarations.** -/
theorem Later.changes {s s' : Session} (h : Later s s') : Env.Changes s.env s'.env := by
  induction h with
  | refl => exact .refl
  | tail _ hstep ih => exact ih.trans hstep.changes

theorem Reachable.changes {s : Session} (h : s.Reachable) : Env.Changes initialEnv s.env := by
  obtain ⟨console, hlater⟩ := h
  exact Later.changes hlater

end Session

end Sugod
