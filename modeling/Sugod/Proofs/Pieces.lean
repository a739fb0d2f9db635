import Sugod.Proofs.Displaying
import Sugod.Proofs.FailingWrites
import Sugod.Proofs.History

/-!
# Running in pieces

A list of statements can be run at once, or a front of it first and the rest in the same session.
The main statement is **`pieces_run_as_whole`**: apart from the line that acknowledges a program
which displayed nothing, the two are the same.

Running at once, the statements of the rest start with what the front has written behind them and
with the answer whether something was displayed. `Oblivious` says that neither matters: an action
does the same whatever was written and displayed before. That the front leaves the number of calls
as it was is part of its effect (`Eval.stmts_affects`).
-/

set_option autoImplicit false

namespace Sugod

/-! ## What was written before -/

/-- The console with some texts written in front of its own. -/
def Console.behind (ws : List String) (c : Console) : Console :=
  { c with writes := c.writes ++ ws }

/-- The state behind some texts, and perhaps behind something displayed. -/
def State.behind (ws : List String) (shown : Bool) (s : State) : State :=
  { s with console := s.console.behind ws, displayed := s.displayed || shown }

/-- The state with nothing written and nothing displayed yet. -/
def State.fresh (s : State) : State :=
  { s with console := s.console.clear, displayed := false }

theorem State.fresh_behind (s : State) : s.fresh.behind s.console.writes s.displayed = s := by
  simp [fresh, behind, Console.behind, Console.clear]

namespace Console

theorem write_behind (ws : List String) (c : Console) (text : String) :
    (c.behind ws).write text = ((c.write text).1, (c.write text).2.behind ws) := by
  unfold write behind
  rcases hleft : c.writesLeft with - | - | n <;> simp [hleft]

theorem read_behind (ws : List String) (c : Console) :
    (c.behind ws).read = (c.read.1, c.read.2.behind ws) := by
  unfold read behind
  by_cases hfail : c.readsFail = true
  · simp [hfail]
  · rcases hinput : c.input with - | ⟨line | line, rest⟩ <;> simp [hfail, hinput]

end Console

namespace Action

variable {ε α β : Type}

/-- The action does the same whatever has been written and displayed before. -/
def Oblivious (x : Action ε α) : Prop :=
  ∀ s ws shown, x (s.behind ws shown) = (x s).mapAfter (State.behind ws shown)

theorem oblivious_ofExcept (line : Nat) (x : Except Cause α) : (ofExcept line x).Oblivious := by
  intro s ws shown
  cases x <;> rfl

theorem oblivious_onEnv (line : Nat) (f : Env → Except Cause Env) : (onEnv line f).Oblivious := by
  intro s ws shown
  have henv : (s.behind ws shown).env = s.env := rfl
  unfold onEnv
  rw [henv]
  cases f s.env <;> rfl

theorem oblivious_onConsole {line : Nat} {f : Console → Except Cause α × Console}
    (hf : ∀ c ws, f (c.behind ws) = ((f c).1, (f c).2.behind ws)) :
    (onConsole line f).Oblivious := by
  intro s ws shown
  have hconsole : (s.behind ws shown).console = s.console.behind ws := rfl
  unfold onConsole
  rw [hconsole, hf]
  rcases f s.console with ⟨_ | _, _⟩ <;> rfl

theorem oblivious_readLine (line : Nat) : (readLine line).Oblivious := by
  refine oblivious_onConsole fun c ws => ?_
  rw [c.read_behind]
  rcases c.read with ⟨_ | _ | _, _⟩ <;> rfl

theorem oblivious_say (line : Nat) (text : String) : (say line text).Oblivious := by
  refine oblivious_onConsole fun c ws => ?_
  rw [c.write_behind]
  rcases c.write text with ⟨_ | _, _⟩ <;> rfl

/-- Something is displayed, whether it is the first time or not. -/
theorem oblivious_display (line : Nat) (text : String) : (display line text).Oblivious := by
  intro s ws shown
  exact oblivious_say line text { s with displayed := true } ws shown

theorem Oblivious.bind {x : Action ε α} {f : α → Action ε β} (hx : x.Oblivious)
    (hf : ∀ a s s', x s = .done a s' → (f a).Oblivious) : (x >>= f).Oblivious := by
  intro s ws shown
  rw [bind_apply, bind_apply, hx]
  cases hr : x s with
  | done a s₁ => exact hf a s s₁ hr s₁ ws shown
  | stop e s₁ => rfl
  | spent => rfl

theorem oblivious_builtin (line : Nat) (b : Builtin) (args : List Value) :
    (onConsole line (b.call args)).Oblivious := by
  by_cases hask : ∃ prompt, b = .scanString ∧ args = [prompt]
  · obtain ⟨prompt, rfl, rfl⟩ := hask
    show (onConsole line (Builtin.ask prompt)).Oblivious
    rw [onConsole_ask]
    exact (oblivious_say line _).bind fun _ _ _ _ =>
      (oblivious_readLine line).bind fun _ _ _ _ _ _ _ => rfl
  · -- The other built-in functions neither write nor look at what is written.
    refine oblivious_onConsole fun c ws => ?_
    unfold Builtin.call
    split <;> first | rfl | exact absurd ⟨_, rfl, rfl⟩ hask

theorem Oblivious.inScope {x : Action ε α} (hx : x.Oblivious) (parent : ScopeId) :
    (inScope parent x).Oblivious := by
  intro s ws shown
  have henter : x { s.behind ws shown with env := s.env.push parent } =
      (x { s with env := s.env.push parent }).mapAfter (State.behind ws shown) :=
    hx { s with env := s.env.push parent } ws shown
  show (x { s.behind ws shown with env := s.env.push parent }).mapAfter _ =
    ((x { s with env := s.env.push parent }).mapAfter _).mapAfter _
  rw [henter]
  cases x { s with env := s.env.push parent } <;> rfl

theorem Oblivious.nested {x : Action ε α} (hx : x.Oblivious) : x.nested.Oblivious :=
  fun s ws shown => hx.inScope s.env.current s ws shown

theorem Oblivious.called {x : Action ε α} (hx : x.Oblivious) : x.called.Oblivious := by
  intro s ws shown
  have henter := hx.inScope globalScope { s with callDepth := s.callDepth + 1 } ws shown
  show (Action.inScope globalScope x
      (State.behind ws shown { s with callDepth := s.callDepth + 1 })).mapAfter _ =
    ((Action.inScope globalScope x { s with callDepth := s.callDepth + 1 }).mapAfter _).mapAfter _
  rw [henter]
  cases Action.inScope globalScope x { s with callDepth := s.callDepth + 1 } <;> rfl

theorem Oblivious.settle {ε' : Type} {x : Action ε α} (hx : x.Oblivious)
    (f : Except ε α → Except ε' β) : (x.settle f).Oblivious := by
  intro s ws shown
  unfold Action.settle
  rw [hx]
  cases x s with
  | done a s₁ => simp only [Result.mapAfter]; cases f (.ok a) <;> rfl
  | stop e s₁ => simp only [Result.mapAfter]; cases f (.error e) <;> rfl
  | spent => rfl

theorem Oblivious.asStmt {x : Action Fault α} (hx : x.Oblivious) : x.asStmt.Oblivious := by
  rw [asStmt_eq_settle]
  exact hx.settle _

end Action

namespace Eval

open Sugod.Action

/-- Evaluation never looks at what has been written or displayed. -/
theorem compositional_oblivious :
    Compositional (fun _ x => x.Oblivious) (fun _ x => x.Oblivious) (fun _ x => x.Oblivious) where
  spent := fun _ _ _ => rfl
  ofExcept := oblivious_ofExcept
  getVar name := fun s ws shown => oblivious_ofExcept name.line (s.env.get name.lexeme) s ws shown
  assign name _ := oblivious_onEnv name.line _
  checked line f := fun s ws shown => oblivious_ofExcept line (f s.callDepth) s ws shown
  readLine := oblivious_readLine
  display := oblivious_display
  builtin := oblivious_builtin
  bindExpr := Oblivious.bind
  call decl hx := hx.called.settle decl.result
  asStmt := Oblivious.asStmt
  returned _ _ := fun _ _ _ => rfl
  bindPart := Oblivious.bind
  nested := Oblivious.nested
  part hx := hx
  bindStmt := Oblivious.bind
  declare name _ _ := (oblivious_onEnv name.line _).asStmt

theorem stmts_oblivious (n : Nat) (ss : List Stmt) : (stmts n ss).Oblivious :=
  (compositional_oblivious.holds n).stmts ss

/-- What statements do is settled by what they do on a console without anything written. -/
theorem stmts_eq_mapAfter_fresh (n : Nat) (ss : List Stmt) (s : State) :
    stmts n ss s =
      (stmts n ss s.fresh).mapAfter (State.behind s.console.writes s.displayed) := by
  rw [← stmts_oblivious, s.fresh_behind]

theorem stmts_fresh_ne_spent_iff {n : Nat} {ss : List Stmt} {s : State} :
    stmts n ss s.fresh ≠ .spent ↔ stmts n ss s ≠ .spent := by
  rw [stmts_eq_mapAfter_fresh n ss s]
  cases stmts n ss s.fresh <;> simp [Result.mapAfter]

/-! ## A list of statements and its rest -/

/-- What a list of statements comes to, its front and its rest come to one after the other. -/
theorem stmts_append_grows (n : Nat) (p q : List Stmt) :
    (stmts n (p ++ q)).Grows (stmts n p >>= fun _ => stmts n q) := by
  induction p generalizing n with
  | nil =>
    cases n with
    | zero => rw [List.nil_append, stmts]; exact grows_spent _
    | succ n => exact .refl _
  | cons st p ih =>
    cases n with
    | zero => rw [List.cons_append, stmts]; exact grows_spent _
    | succ n =>
      rw [List.cons_append, stmts, stmts, bind_assoc]
      refine (Grows.refl _).bind fun _ => (ih n).trans ?_
      exact (Grows.refl _).bind fun _ => stmts_mono (Nat.le_succ n) q

/-- The list needs a step more for every statement of the front. -/
theorem grows_stmts_append (n : Nat) (p q : List Stmt) :
    (stmts n p >>= fun _ => stmts n q).Grows (stmts (n + p.length) (p ++ q)) := by
  induction p generalizing n with
  | nil =>
    cases n with
    | zero => rw [stmts]; exact grows_spent _
    | succ n => exact .refl _
  | cons st p ih =>
    cases n with
    | zero => rw [stmts]; exact grows_spent _
    | succ n =>
      rw [List.cons_append, List.length_cons, ← Nat.add_assoc, stmts, stmts, bind_assoc]
      refine (stmt_mono (by omega) st).bind fun _ => ?_
      refine Grows.trans ?_ (ih (n + 1))
      exact (stmts_mono (Nat.le_succ n) p).bind fun _ => .refl _

variable {n : Nat} {p q : List Stmt} {s s₁ : State}

/-- A front that stops stops the list. -/
theorem stmts_append_of_stop {i : Interrupt} (h : stmts n p s = .stop i s₁) :
    ∃ m, stmts m (p ++ q) s = .stop i s₁ := by
  have hbind : (stmts n p >>= fun _ => stmts n q) s = .stop i s₁ := by rw [bind_apply, h]
  refine ⟨n + p.length, ?_⟩
  rw [grows_stmts_append n p q s (by simp [hbind]), hbind]

/-- Behind a front that is done, the list comes to what its rest comes to. -/
theorem stmts_append_of_done (h : stmts n p s = .done () s₁) {r : Result Interrupt Unit}
    (hr : r ≠ .spent) : (∃ m, stmts m (p ++ q) s = r) ↔ ∃ m, stmts m q s₁ = r := by
  constructor
  · rintro ⟨m, rfl⟩
    have hbind := stmts_append_grows m p q s hr
    rw [← hbind] at hr ⊢
    have hrest := bind_of_done_of_ended (x := fun k => stmts k p)
      (fun k => (stepGrows k).stmts p) h hr
    exact ⟨m, hrest.symm⟩
  · rintro ⟨m, rfl⟩
    have hfront : stmts (max n m) p s = .done () s₁ := by
      rw [stmts_mono (Nat.le_max_left n m) p s (by simp [h]), h]
    have hrest : stmts (max n m) q s₁ = stmts m q s₁ := stmts_mono (Nat.le_max_right n m) q s₁ hr
    have hbind : (stmts (max n m) p >>= fun _ => stmts (max n m) q) s = stmts m q s₁ := by
      rw [bind_of_done hfront, hrest]
    refine ⟨max n m + p.length, ?_⟩
    rw [grows_stmts_append _ p q s (by rwa [hbind]), hbind]

end Eval

/-! ## Sessions -/

/-- The line that acknowledges a program, if it is due. -/
def acknowledgementIf (due : Bool) : String :=
  if due then acknowledgement else ""

namespace Console

/-- The console with the acknowledgement written, if it is due. -/
def close (due : Bool) (c : Console) : Console :=
  if due then { c with writes := acknowledgement :: c.writes } else c

theorem output_close (due : Bool) (c : Console) :
    (c.close due).output = c.output ++ acknowledgementIf due := by
  cases due with
  | false => simp [close, acknowledgementIf]
  | true => simp [close, acknowledgementIf, output, String.join_append]

theorem output_behind (ws : List String) (c : Console) :
    (c.behind ws).output = String.join ws.reverse ++ c.output := by
  unfold output behind
  rw [List.reverse_append, String.join_append]

theorem clear_close (due : Bool) (c : Console) : (c.close due).clear = c.clear := by
  cases due <;> rfl

end Console

namespace Session

/-- With enough steps, executing the program ends with the result, in the second session. -/
def Interprets (s : Session) (program : Program) (result : Except Fault Unit) (s' : Session) :
    Prop :=
  ∃ n, s.interpret n program = some (result, s')

/-- Statements that end do so with one result, whatever the number of steps. -/
theorem stmts_eq_of_ended {ss : List Stmt} {st : State} {n m : Nat}
    (hn : Eval.stmts n ss st ≠ .spent) (hm : Eval.stmts m ss st ≠ .spent) :
    Eval.stmts n ss st = Eval.stmts m ss st :=
  Action.eq_of_ended (x := fun k => Eval.stmts k ss) (fun k => (Eval.stepGrows k).stmts ss) hn hm

theorem ne_spent_of_interpret {s : Session} {program : Program} {n : Nat}
    {e : Except Fault Unit × Session} (h : s.interpret n program = some e) :
    Eval.stmts n program s.state ≠ .spent := by
  intro hspent
  simp [interpret, hspent] at h

/-- Executing a program has one end. -/
theorem Interprets.unique {s s₁ s₂ : Session} {program : Program} {r₁ r₂ : Except Fault Unit}
    (h₁ : s.Interprets program r₁ s₁) (h₂ : s.Interprets program r₂ s₂) : r₁ = r₂ ∧ s₁ = s₂ := by
  obtain ⟨n, hn⟩ := h₁
  obtain ⟨m, hm⟩ := h₂
  have hsame : s.interpret n program = s.interpret m program := by
    unfold interpret
    rw [stmts_eq_of_ended (ne_spent_of_interpret hn) (ne_spent_of_interpret hm)]
  rw [hn, hm] at hsame
  simpa using hsame

/-- How a session goes on behind the statements of a program if writes never fail. -/
def closed : Result Interrupt Unit → Option (Except Fault Unit × Session)
  | .done () st => some (.ok (), ⟨st.env, st.console.close (!st.displayed)⟩)
  | .stop i st => some (.error i.toFault, ofState st)
  | .spent => none

theorem interpret_eq_closed {s : Session} (never : s.console.writesLeft = none) (n : Nat)
    (program : Program) : s.interpret n program = closed (Eval.stmts n program s.state) := by
  unfold interpret
  cases hr : Eval.stmts n program s.state with
  | done u st =>
    obtain ⟨ws, hws⟩ := Eval.stmts_heeds n program s.state st never (by rw [hr]; rfl)
    simp only [closed, acknowledge, Console.write_of_unlimited hws.unlimited]
    cases st.displayed <;> rfl
  | stop i st => rfl
  | spent => rfl

theorem exists_interprets_iff {s : Session} {program : Program} :
    (∃ r s', s.Interprets program r s') ↔ ∃ n, Eval.stmts n program s.state ≠ .spent := by
  constructor
  · rintro ⟨r, s', n, h⟩
    exact ⟨n, ne_spent_of_interpret h⟩
  · rintro ⟨n, h⟩
    cases hr : Eval.stmts n program s.state with
    | done u st => exact ⟨_, _, n, by rw [interpret, hr]⟩
    | stop i st => exact ⟨_, _, n, by rw [interpret, hr]⟩
    | spent => exact absurd hr h

/-- Two sessions behind the same statements, begun behind different texts. -/
theorem closed_behind {b : Result Interrupt Unit} {ws ws' : List String} {shown : Bool}
    {r r' : Except Fault Unit} {whole s' : Session}
    (h : closed (b.mapAfter (State.behind ws shown)) = some (r, whole))
    (h' : closed (b.mapAfter (State.behind ws' false)) = some (r', s')) :
    r = r' ∧ whole.env = s'.env ∧ whole.console.clear = s'.console.clear ∧
      ∃ (qs : String) (st : State), b.after? = some st ∧
        s'.console.output =
          String.join ws'.reverse ++ qs ++ acknowledgementIf (r.isOk && !st.displayed) ∧
        whole.console.output = String.join ws.reverse ++ qs ++
          acknowledgementIf (r.isOk && !shown && !st.displayed) := by
  cases b with
  | done u st =>
    cases h
    cases h'
    refine ⟨rfl, rfl, ?_, st.console.output, st, rfl, ?_, ?_⟩
    · rw [Console.clear_close, Console.clear_close]
      rfl
    · rw [Console.output_close]
      show (st.console.behind ws').output ++ _ = _
      rw [Console.output_behind]
      simp [State.behind, Except.isOk, Except.toBool]
    · rw [Console.output_close]
      show (st.console.behind ws).output ++ _ = _
      rw [Console.output_behind]
      simp [State.behind, Except.isOk, Except.toBool, Bool.and_comm]
  | stop i st =>
    cases h
    cases h'
    refine ⟨rfl, rfl, rfl, st.console.output, st, rfl, ?_, ?_⟩
    · show (st.console.behind ws').output = _
      rw [Console.output_behind]
      simp [Except.isOk, Except.toBool, acknowledgementIf]
    · show (st.console.behind ws).output = _
      rw [Console.output_behind]
      simp [Except.isOk, Except.toBool, acknowledgementIf]
  | spent => cases h

/-- A program whose front fails ends as its front does. -/
theorem Interprets.append_of_error {s s' : Session} (never : s.console.writesLeft = none)
    {p : Program} {f : Fault} (h : s.Interprets p (.error f) s') (q : Program) :
    s.Interprets (p ++ q) (.error f) s' := by
  obtain ⟨n, hn⟩ := h
  rw [interpret_eq_closed never] at hn
  cases hr : Eval.stmts n p s.state with
  | done u st =>
    rw [hr] at hn
    cases hn
  | stop i st =>
    obtain ⟨m, hm⟩ := Eval.stmts_append_of_stop (q := q) hr
    refine ⟨m, ?_⟩
    rw [interpret_eq_closed never, hm, ← hn, hr]
  | spent =>
    rw [hr] at hn
    cases hn

/-- The statements of the front `p` are done in the state `st`, and the session goes on with `s₁`.
The rest starts alike in both, but for what is written and displayed. -/
structure Front (s : Session) (p : Program) (s₁ : Session) (n : Nat) (st : State) : Prop where
  done : Eval.stmts n p s.state = .done () st
  fresh : s₁.state.fresh = st.fresh
  never : s₁.console.writesLeft = none
  console : s₁.console = st.console.close (!st.displayed)

/-- A front that succeeds leaves the number of calls and the room for writes as they were. -/
theorem Interprets.front {s s₁ : Session} (never : s.console.writesLeft = none) {p : Program}
    (h : s.Interprets p (.ok ()) s₁) : ∃ n st, Front s p s₁ n st := by
  obtain ⟨n, hn⟩ := h
  rw [interpret_eq_closed never] at hn
  cases hr : Eval.stmts n p s.state with
  | done u st =>
    rw [hr] at hn
    cases hn
    obtain ⟨ws, hws⟩ := Eval.stmts_heeds n p s.state st never (by rw [hr]; rfl)
    have hdepth : st.callDepth = 0 := (Eval.stmts_affects n p s.state st (by rw [hr]; rfl)).2
    refine ⟨n, st, hr, ?_, ?_, rfl⟩
    · simp only [State.fresh, state, Console.clear_close, hdepth]
    · cases st.displayed <;> exact hws.unlimited
  | stop i st =>
    rw [hr] at hn
    cases hn
  | spent =>
    rw [hr] at hn
    cases hn

namespace Front

variable {s s₁ : Session} {p : Program} {n : Nat} {st : State} (front : Front s p s₁ n st)

include front

/-- What the front writes, and its acknowledgement. -/
theorem exists_output (never : s.console.writesLeft = none) :
    ∃ ps, st.console.output = s.console.output ++ ps ∧
      s₁.console.output = s.console.output ++ ps ++ acknowledgementIf (!st.displayed) := by
  obtain ⟨ws, hws⟩ := Eval.stmts_heeds n p s.state st never (by rw [front.done]; rfl)
  have hps := Console.output_of_writes hws.writes
  refine ⟨String.join ws, hps, ?_⟩
  rw [front.console, Console.output_close, hps]
  rfl

theorem displayed_iff : st.displayed = true ↔ Eval.Displays (.stmts p) s.state := by
  have hafter : (Eval.Task.stmts p).after? n s.state = some st := by
    rw [Eval.Task.after?, front.done]
    rfl
  simpa [state] using Eval.Task.displayed_iff hafter

/-- The list ends exactly if its rest ends in the session behind the front. -/
theorem exists_interprets_append_iff (q : Program) :
    (∃ r whole, s.Interprets (p ++ q) r whole) ↔ ∃ r s₂, s₁.Interprets q r s₂ := by
  have hrest : ∀ k, Eval.stmts k q s₁.state ≠ .spent ↔ Eval.stmts k q st ≠ .spent := fun k => by
    rw [← Eval.stmts_fresh_ne_spent_iff, front.fresh, Eval.stmts_fresh_ne_spent_iff]
  rw [exists_interprets_iff, exists_interprets_iff]
  constructor
  · rintro ⟨m, hm⟩
    obtain ⟨k, hk⟩ := (Eval.stmts_append_of_done front.done hm).mp ⟨m, rfl⟩
    exact ⟨k, (hrest k).mpr (by rwa [hk])⟩
  · rintro ⟨k, hk⟩
    rw [hrest] at hk
    obtain ⟨m, hm⟩ := (Eval.stmts_append_of_done front.done hk).mpr ⟨k, rfl⟩
    exact ⟨m, by rwa [hm]⟩

/-- Both runs of the rest are one run on a fresh console, behind different texts. -/
theorem exists_closed {q : Program} {m k : Nat} {e e' : Except Fault Unit × Session}
    (never : s.console.writesLeft = none) (hm : s.interpret m (p ++ q) = some e)
    (hk : s₁.interpret k q = some e') :
    ∃ b : Result Interrupt Unit,
      closed (b.mapAfter (State.behind st.console.writes st.displayed)) = some e ∧
      closed (b.mapAfter (State.behind s₁.console.writes false)) = some e' ∧
      (Eval.stmts k q s₁.state).after? = b.after?.map (State.behind s₁.console.writes false) := by
  have hended := ne_spent_of_interpret hm
  obtain ⟨j, hj⟩ := (Eval.stmts_append_of_done front.done hended).mp ⟨m, rfl⟩
  have hpiece : Eval.stmts k q s₁.state =
      (Eval.stmts k q st.fresh).mapAfter (State.behind s₁.console.writes false) := by
    rw [Eval.stmts_eq_mapAfter_fresh, front.fresh]
    rfl
  have hsame : Eval.stmts j q st.fresh = Eval.stmts k q st.fresh := by
    refine stmts_eq_of_ended ?_ ?_
    · rwa [Eval.stmts_fresh_ne_spent_iff, hj]
    · rw [← front.fresh, Eval.stmts_fresh_ne_spent_iff]
      exact ne_spent_of_interpret hk
  refine ⟨Eval.stmts k q st.fresh, ?_, ?_, ?_⟩
  · rw [← hsame, ← Eval.stmts_eq_mapAfter_fresh, hj, ← interpret_eq_closed never, hm]
  · rw [← hpiece, ← interpret_eq_closed front.never, hk]
  · rw [hpiece, Result.after?_mapAfter]

end Front

end Session

/-- **Running in pieces is running at once.** On a console whose writes never fail, a program whose
front fails ends as its front does. If the front succeeds, the program ends exactly if its rest does
in the session behind the front, and then with the same result, the same variables and the same
console up to what is written. The outputs are what the front and the rest write, and the
acknowledgement: behind the front if that displayed nothing, behind the rest if it succeeds and
displayed nothing; at once, behind both if the program succeeds and neither displayed anything. -/
theorem pieces_run_as_whole (p q : Program) (s : Session) (never : s.console.writesLeft = none) :
    (∀ f s', s.Interprets p (.error f) s' → ∀ r whole,
      s.Interprets (p ++ q) r whole ↔ r = .error f ∧ whole = s') ∧
    ∀ s₁, s.Interprets p (.ok ()) s₁ →
      ((∃ r whole, s.Interprets (p ++ q) r whole) ↔ ∃ r s₂, s₁.Interprets q r s₂) ∧
      ∀ r whole r' s₂, s.Interprets (p ++ q) r whole → s₁.Interprets q r' s₂ →
        r = r' ∧ whole.env = s₂.env ∧ whole.console.clear = s₂.console.clear ∧
        ∃ (ps qs : String) (shownP shownQ : Bool),
          (shownP = true ↔ Eval.Displays (.stmts p) s.state) ∧
          (shownQ = true ↔ Eval.Displays (.stmts q) s₁.state) ∧
          s₁.console.output = s.console.output ++ ps ++ acknowledgementIf (!shownP) ∧
          s₂.console.output =
            s₁.console.output ++ qs ++ acknowledgementIf (r.isOk && !shownQ) ∧
          whole.console.output = s.console.output ++ ps ++ qs ++
            acknowledgementIf (r.isOk && !shownP && !shownQ) := by
  constructor
  · intro f s' hp r whole
    have hwhole := hp.append_of_error never q
    constructor
    · exact fun hr => hr.unique hwhole
    · rintro ⟨rfl, rfl⟩
      exact hwhole
  · intro s₁ hp
    obtain ⟨n, st, front⟩ := hp.front never
    refine ⟨front.exists_interprets_append_iff q, ?_⟩
    rintro r whole r' s₂ ⟨m, hm⟩ ⟨k, hk⟩
    obtain ⟨b, hwhole, hpiece, hafter⟩ := front.exists_closed never hm hk
    obtain ⟨hr, henv, hclear, qs, t, ht, hs₂, hout⟩ := Session.closed_behind hwhole hpiece
    obtain ⟨ps, hps, hs₁⟩ := front.exists_output never
    have hshown : t.displayed = true ↔ Eval.Displays (.stmts q) s₁.state := by
      have hend : (Eval.Task.stmts q).after? k s₁.state =
          some (t.behind s₁.console.writes false) := by
        rw [Eval.Task.after?, hafter, ht]
        rfl
      simpa [Session.state, State.behind] using Eval.Task.displayed_iff hend
    refine ⟨hr, henv, hclear, ps, qs, st.displayed, t.displayed, front.displayed_iff, hshown, hs₁,
      hs₂, ?_⟩
    rw [hout, ← hps]
    rfl

/-- Declares `x`, which displays nothing. -/
def declaringX : Program :=
  [.declare ⟨.identifier "x", "x", 1⟩ .int (some (.literal (.int 7) 1)) true]

/-- Displays `x`. -/
def displayingX : Program :=
  [.display (.var ⟨.identifier "x", "x", 2⟩)]

/-- In pieces, the declaration is acknowledged; at once, nothing is, because `x` is displayed. -/
theorem pieces_run_as_whole_declaring :
    ∃ s₁ s₂ whole : Session,
      (Session.start {}).Interprets declaringX (.ok ()) s₁ ∧ s₁.Interprets displayingX (.ok ()) s₂ ∧
      (Session.start {}).Interprets (declaringX ++ displayingX) (.ok ()) whole ∧
      s₁.console.output = "No Error.\n" ∧ s₂.console.output = "No Error.\n7" ∧
      whole.console.output = "7" ∧ whole.env = s₂.env := by
  have hfirst : ((Session.start {}).interpret 9 declaringX).map
      (fun r => (r.1, r.2.console.output)) = some (.ok (), "No Error.\n") := by
    decide +kernel
  have hsecond : (((Session.start {}).interpret 9 declaringX).bind fun r =>
      (r.2.interpret 9 displayingX).map fun r' => (r'.1, r'.2.console.output)) =
        some (.ok (), "No Error.\n7") := by
    decide +kernel
  have hwhole : ((Session.start {}).interpret 9 (declaringX ++ displayingX)).map
      (fun r => (r.1, r.2.console.output)) = some (.ok (), "7") := by
    decide +kernel
  obtain ⟨⟨r₁, s₁⟩, h₁, he₁⟩ := Option.map_eq_some_iff.mp hfirst
  obtain ⟨rfl, hout₁⟩ : r₁ = .ok () ∧ s₁.console.output = "No Error.\n" := by simpa using he₁
  rw [h₁, Option.bind_some] at hsecond
  obtain ⟨⟨r₂, s₂⟩, h₂, he₂⟩ := Option.map_eq_some_iff.mp hsecond
  obtain ⟨rfl, hout₂⟩ : r₂ = .ok () ∧ s₂.console.output = "No Error.\n7" := by simpa using he₂
  obtain ⟨⟨r, whole⟩, h, he⟩ := Option.map_eq_some_iff.mp hwhole
  obtain ⟨rfl, hout⟩ : r = .ok () ∧ whole.console.output = "7" := by simpa using he
  have hpieces := (pieces_run_as_whole declaringX displayingX (Session.start {}) rfl).2 s₁ ⟨9, h₁⟩
  have hsame := hpieces.2 _ whole _ s₂ ⟨9, h⟩ ⟨9, h₂⟩
  exact ⟨s₁, s₂, whole, ⟨9, h₁⟩, ⟨9, h₂⟩, ⟨9, h⟩, hout₁, hout₂, hout, hsame.2.1⟩

end Sugod
