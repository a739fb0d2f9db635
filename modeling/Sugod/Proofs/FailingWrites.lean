import Sugod.Session
import Sugod.Proofs.Effect

/-!
# Runs on a console whose writes fail

A run is compared with the same run on a console that accepts a number of writes and fails every
later one. The main statement is `failing_write_ends`: with room for all its writes the run is the
same, and otherwise it ends with the failure of the first write that has no room, having written
what stands before that one.

`Transcript` holds what is compared for a single action, and `Heeds` says that every end of an
action has a transcript. It passes through all ways in which actions are put together, so that no
call, loop or block hides a write that failed.
-/

set_option autoImplicit false

namespace Sugod

/-! ## Limited consoles -/

/-- The console with room for `n` more writes. -/
def Console.limit (n : Nat) (c : Console) : Console :=
  { c with writesLeft := some n }

/-- The state with room for `n` more writes on its console. -/
def State.limit (n : Nat) (s : State) : State :=
  { s with console := s.console.limit n }

/-- The session with room for `n` more writes on its console. -/
def Session.limit (n : Nat) (s : Session) : Session :=
  { s with console := s.console.limit n }

namespace Console

theorem write_of_unlimited {c : Console} (h : c.writesLeft = none) (text : String) :
    c.write text = (.ok (), { c with writes := text :: c.writes }) := by
  unfold write
  rw [h]

/-- Reading does not depend on how many writes there is room for. -/
theorem read_limit (c : Console) (n : Nat) :
    (c.limit n).read = (c.read.1, c.read.2.limit n) := by
  unfold read limit
  by_cases hfail : c.readsFail = true
  · simp [hfail]
  · rcases hinput : c.input with - | ⟨line | line, rest⟩ <;> simp [hfail, hinput]

/-- Reading writes nothing. -/
theorem read_writes (c : Console) :
    c.read.2.writes = c.writes ∧ c.read.2.writesLeft = c.writesLeft := by
  unfold read
  split
  · exact ⟨rfl, rfl⟩
  · split <;> exact ⟨rfl, rfl⟩

end Console

/-! ## Reasons to stop -/

/-- The fault reports that a write failed. -/
def Fault.IsWrite (f : Fault) : Prop :=
  f.cause = .console .write

/-- A statement stops because a write failed. -/
def Interrupt.IsWrite : Interrupt → Prop
  | .returned _ _ => False
  | .fault f => f.IsWrite

namespace Action

variable {ε α β : Type} {F : ε → Prop}

/-- From the state `s`, on a console whose writes never fail, an action comes to the state `s'` and
writes `ws`. With room for these writes it does the same, and with room for fewer it stops for a
reason in `F` when the room is used up. -/
structure Transcript (F : ε → Prop) (x : Action ε α) (s s' : State) (ws : List String) : Prop where
  unlimited : s'.console.writesLeft = none
  writes : s'.console.writes = ws.reverse ++ s.console.writes
  enough (k : Nat) : x (s.limit (ws.length + k)) = (x s).mapAfter (State.limit k)
  short (n : Nat) (hn : n < ws.length) : ∃ e t, F e ∧ x (s.limit n) = .stop e t ∧
    t.console.writesLeft = some 0 ∧ t.console.writes = (ws.take n).reverse ++ s.console.writes

/-- Whenever an action ends on a console whose writes never fail, it has a transcript. -/
def Heeds (F : ε → Prop) (x : Action ε α) : Prop :=
  ∀ s s', s.console.writesLeft = none → (x s).after? = some s' → ∃ ws, x.Transcript F s s' ws

/-! ## Primitive actions -/

/-- An action that writes nothing, whatever room there is. -/
theorem heeds_of_silent {x : Action ε α}
    (hwrites : ∀ s s', (x s).after? = some s' →
      s'.console.writes = s.console.writes ∧ s'.console.writesLeft = s.console.writesLeft)
    (hlimit : ∀ s n, x (s.limit n) = (x s).mapAfter (State.limit n)) : x.Heeds F := by
  intro s s' hnone h
  obtain ⟨hsame, hleft⟩ := hwrites s s' h
  refine ⟨[], hleft.trans hnone, hsame, fun k => ?_, fun n hn => absurd hn (Nat.not_lt_zero n)⟩
  show x (s.limit (0 + k)) = _
  rw [Nat.zero_add]
  exact hlimit s k

/-- An action heeds failing writes if it does so with what depends on the state held fixed. -/
theorem heeds_of_heeds_at {x : State → Action ε α} (hx : ∀ s₀, (x s₀).Heeds F)
    (hlimit : ∀ s n, x (s.limit n) = x s) : Heeds F fun s => x s s := by
  intro s s' hnone h
  obtain ⟨ws, hunlimited, hwrites, henough, hshort⟩ := hx s s s' hnone h
  refine ⟨ws, hunlimited, hwrites, fun k => ?_, fun n hn => ?_⟩
  · simp only [hlimit]
    exact henough k
  · simp only [hlimit]
    exact hshort n hn

theorem heeds_spent : (spent : Action ε α).Heeds F := by
  intro s s' _ h
  cases h

theorem heeds_stop (e : ε) : (stop e : Action ε α).Heeds F := by
  refine heeds_of_silent (fun s s' h => ?_) fun s n => rfl
  cases h
  exact ⟨rfl, rfl⟩

theorem heeds_ofExcept {F : Fault → Prop} (line : Nat) (x : Except Cause α) :
    (ofExcept line x).Heeds F := by
  refine heeds_of_silent (fun s s' h => ?_) fun s n => ?_
  · cases x <;> cases h <;> exact ⟨rfl, rfl⟩
  · cases x <;> rfl

theorem heeds_onEnv {F : Fault → Prop} (line : Nat) (f : Env → Except Cause Env) :
    (onEnv line f).Heeds F := by
  refine heeds_of_silent (fun s s' h => ?_) fun s n => ?_
  · unfold onEnv at h
    split at h <;> cases h <;> exact ⟨rfl, rfl⟩
  · have henv : (s.limit n).env = s.env := rfl
    unfold onEnv
    rw [henv]
    cases f s.env <;> rfl

/-- An action on the console that writes nothing. -/
theorem heeds_onConsole {F : Fault → Prop} {line : Nat}
    {f : Console → Except Cause α × Console}
    (hwrites : ∀ c, (f c).2.writes = c.writes ∧ (f c).2.writesLeft = c.writesLeft)
    (hlimit : ∀ c n, f (c.limit n) = ((f c).1, (f c).2.limit n)) : (onConsole line f).Heeds F := by
  refine heeds_of_silent (fun s s' h => ?_) fun s n => ?_
  · have hsame := hwrites s.console
    unfold onConsole at h
    split at h <;> rename_i hf <;> rw [hf] at hsame <;> cases h <;> exact hsame
  · have hconsole : (s.limit n).console = s.console.limit n := rfl
    unfold onConsole
    rw [hconsole, hlimit]
    rcases f s.console with ⟨_ | _, _⟩ <;> rfl

/-- Writes a text, and stops at a line if that fails. -/
def say (line : Nat) (text : String) : Action Fault Unit :=
  onConsole line fun console =>
    match console.write text with
    | (.error e, console) => (.error (.console e), console)
    | (.ok (), console) => (.ok (), console)

/-- **The one place where room is used up.** -/
theorem heeds_say (line : Nat) (text : String) : (say line text).Heeds Fault.IsWrite := by
  intro s s' hnone h
  have hsay : say line text s =
      .done () { s with console := { s.console with writes := text :: s.console.writes } } := by
    simp only [say, onConsole, Console.write_of_unlimited hnone]
  rw [hsay] at h
  cases h
  refine ⟨[text], hnone, rfl, fun k => ?_, fun n hn => ?_⟩
  · rw [hsay]
    show say line text (s.limit (1 + k)) = _
    rw [Nat.add_comm]
    rfl
  · obtain rfl : n = 0 := Nat.lt_one_iff.mp hn
    exact ⟨⟨.console .write, line⟩, s.limit 0, rfl, rfl, rfl, rfl⟩

/-- What is done before the first write may be done to the state, if it leaves the console alone. -/
theorem Heeds.before {x : Action ε α} (hx : x.Heeds F) {g : State → State}
    (hconsole : ∀ s, (g s).console = s.console) (hlimit : ∀ s n, g (s.limit n) = (g s).limit n) :
    Heeds F fun s => x (g s) := by
  intro s s' hnone h
  obtain ⟨ws, hunlimited, hwrites, henough, hshort⟩ := hx (g s) s' (by rwa [hconsole]) h
  rw [hconsole] at hwrites
  refine ⟨ws, hunlimited, hwrites, fun k => ?_, fun n hn => ?_⟩
  · show x (g (s.limit _)) = _
    rw [hlimit]
    exact henough k
  · show ∃ e t, F e ∧ x (g (s.limit n)) = _ ∧ _
    rw [hlimit, ← hconsole s]
    exact hshort n hn

theorem heeds_display (line : Nat) (text : String) :
    (display line text).Heeds Fault.IsWrite :=
  (heeds_say line text).before (fun _ => rfl) fun _ _ => rfl

theorem heeds_readLine {F : Fault → Prop} (line : Nat) : (readLine line).Heeds F := by
  refine heeds_onConsole (fun c => ?_) fun c n => ?_
  · have hsame := c.read_writes
    split <;> rename_i hr <;> rw [hr] at hsame <;> exact hsame
  · rw [c.read_limit]
    rcases c.read with ⟨_ | _ | _, _⟩ <;> rfl

/-! ## Combinations -/

/-- Behind the writes of an action come those of the action that goes on. -/
theorem Transcript.bind_done {x : Action ε α} {f : α → Action ε β} {a : α} {s mid s' : State}
    {us vs : List String} (hr : x s = .done a mid) (hx : x.Transcript F s mid us)
    (hf : (f a).Transcript F mid s' vs) : (x >>= f).Transcript F s s' (us ++ vs) := by
  -- With room for the first writes, the second action runs with the room that is left.
  have hgo : ∀ k, (x >>= f) (s.limit (us.length + k)) = f a (mid.limit k) := by
    intro k
    rw [bind_apply, hx.enough, hr]
    rfl
  constructor
  case unlimited => exact hf.unlimited
  case writes => rw [hf.writes, hx.writes, List.reverse_append, List.append_assoc]
  case enough =>
    intro k
    rw [List.length_append, Nat.add_assoc, hgo, hf.enough, bind_apply, hr]
  case short =>
    intro n hn
    rw [List.length_append] at hn
    by_cases hlt : n < us.length
    · obtain ⟨e, t, he, hstop, hleft, hwrites⟩ := hx.short n hlt
      refine ⟨e, t, he, by rw [bind_apply, hstop], hleft, ?_⟩
      rw [hwrites, List.take_append_of_le_length (Nat.le_of_lt hlt)]
    · obtain ⟨k, rfl⟩ := Nat.exists_eq_add_of_le (Nat.le_of_not_lt hlt)
      have hk : k < vs.length := by omega
      obtain ⟨e, t, he, hstop, hleft, hwrites⟩ := hf.short k hk
      refine ⟨e, t, he, by rw [hgo, hstop], hleft, ?_⟩
      rw [hwrites, hx.writes, List.take_length_add_append, List.reverse_append, List.append_assoc]

theorem Transcript.bind_stop {x : Action ε α} (f : α → Action ε β) {e : ε} {s s' : State}
    {us : List String} (hr : x s = .stop e s') (hx : x.Transcript F s s' us) :
    (x >>= f).Transcript F s s' us := by
  constructor
  case unlimited => exact hx.unlimited
  case writes => exact hx.writes
  case enough =>
    intro k
    rw [bind_apply, hx.enough, bind_apply, hr]
    rfl
  case short =>
    intro n hn
    obtain ⟨e', t, he, hstop, hrest⟩ := hx.short n hn
    exact ⟨e', t, he, by rw [bind_apply, hstop], hrest⟩

theorem Heeds.bind {x : Action ε α} {f : α → Action ε β} (hx : x.Heeds F)
    (hf : ∀ a s s', x s = .done a s' → (f a).Heeds F) : (x >>= f).Heeds F := by
  intro s s' hnone h
  rw [bind_apply] at h
  cases hr : x s with
  | done a mid =>
    rw [hr] at h
    obtain ⟨us, hus⟩ := hx s mid hnone (by rw [hr]; rfl)
    obtain ⟨vs, hvs⟩ := hf a s mid hr mid s' hus.unlimited h
    exact ⟨us ++ vs, hus.bind_done hr hvs⟩
  | stop e mid =>
    rw [hr] at h
    cases h
    obtain ⟨us, hus⟩ := hx s s' hnone (by rw [hr]; rfl)
    exact ⟨us, hus.bind_stop f hr⟩
  | spent =>
    rw [hr] at h
    cases h

/-- A prompt is written before the line is taken. -/
theorem onConsole_ask (line : Nat) (prompt : Value) :
    onConsole line (Builtin.ask prompt) =
      say line (prompt.text ++ "\n") >>= fun _ =>
        readLine line >>= fun text => pure (.str text) := by
  funext s
  rw [bind_apply]
  simp only [say, onConsole, Builtin.ask]
  rcases s.console.write (prompt.text ++ "\n") with ⟨e | _, console⟩
  · rfl
  · simp only [bind_apply, readLine, onConsole]
    rcases console.read with ⟨_ | _ | _, _⟩ <;> rfl

theorem heeds_builtin (line : Nat) (b : Builtin) (args : List Value) :
    (onConsole line (b.call args)).Heeds Fault.IsWrite := by
  by_cases hask : ∃ prompt, b = .scanString ∧ args = [prompt]
  · obtain ⟨prompt, rfl, rfl⟩ := hask
    show (onConsole line (Builtin.ask prompt)).Heeds Fault.IsWrite
    rw [onConsole_ask]
    exact (heeds_say line _).bind fun _ _ _ _ =>
      (heeds_readLine line).bind fun _ _ _ _ => heeds_ofExcept 0 (.ok _)
  · -- No other built-in function writes, and only the clock changes the console at all.
    refine heeds_onConsole (fun c => ?_) fun c n => ?_
    · unfold Builtin.call
      split <;> first | exact ⟨rfl, rfl⟩ | exact absurd ⟨_, rfl, rfl⟩ hask
    · unfold Builtin.call
      split <;> first | rfl | exact absurd ⟨_, rfl, rfl⟩ hask

/-- What is done to the state behind an action leaves the console alone. -/
theorem Heeds.mapAfter {x : Action ε α} (hx : x.Heeds F) {g : State → State}
    (hconsole : ∀ s, (g s).console = s.console) (hlimit : ∀ s n, g (s.limit n) = (g s).limit n) :
    Heeds F fun s => (x s).mapAfter g := by
  intro s s' hnone h
  obtain ⟨mid, hmid, rfl⟩ : ∃ mid, (x s).after? = some mid ∧ g mid = s' := by
    rwa [Result.after?_mapAfter, Option.map_eq_some_iff] at h
  obtain ⟨ws, hunlimited, hwrites, henough, hshort⟩ := hx s mid hnone hmid
  refine ⟨ws, by rwa [hconsole], by rwa [hconsole], fun k => ?_, fun n hn => ?_⟩
  · simp only [henough]
    cases x s <;> simp only [Result.mapAfter, hlimit]
  · obtain ⟨e, t, he, hstop, hrest⟩ := hshort n hn
    refine ⟨e, g t, he, ?_, by rwa [hconsole]⟩
    simp only [hstop]
    rfl

theorem Heeds.inScope {x : Action ε α} (hx : x.Heeds F) (parent : ScopeId) :
    (inScope parent x).Heeds F := by
  -- The scope that is returned to is that of the state before.
  refine heeds_of_heeds_at (x := fun s₀ s => (x { s with env := s.env.push parent }).mapAfter
    fun s' => { s' with env := s'.env.pop s₀.env.current }) (fun s₀ => ?_) fun _ _ => rfl
  have hentered : Heeds F fun s => x { s with env := s.env.push parent } :=
    hx.before (fun _ => rfl) fun _ _ => rfl
  exact hentered.mapAfter (fun _ => rfl) fun _ _ => rfl

theorem Heeds.nested {x : Action ε α} (hx : x.Heeds F) : x.nested.Heeds F :=
  heeds_of_heeds_at (x := fun s₀ => Action.inScope s₀.env.current x)
    (fun s₀ => hx.inScope s₀.env.current) fun _ _ => rfl

theorem Heeds.called {x : Action ε α} (hx : x.Heeds F) : x.called.Heeds F := by
  have hentered : Heeds F fun s =>
      Action.inScope globalScope x { s with callDepth := s.callDepth + 1 } :=
    (hx.inScope globalScope).before (fun _ => rfl) fun _ _ => rfl
  exact hentered.mapAfter (fun _ => rfl) fun _ _ => rfl

/-- Going on with the way in which an action ended keeps a write that failed, if it hands on the
reason. -/
theorem Heeds.settle {ε' : Type} {F' : ε' → Prop} {x : Action ε α} (hx : x.Heeds F)
    {f : Except ε α → Except ε' β} (hf : ∀ e, F e → ∃ e', F' e' ∧ f (.error e) = .error e') :
    (x.settle f).Heeds F' := by
  intro s s' hnone h
  rw [after?_settle] at h
  obtain ⟨ws, hunlimited, hwrites, henough, hshort⟩ := hx s s' hnone h
  refine ⟨ws, hunlimited, hwrites, fun k => ?_, fun n hn => ?_⟩
  · unfold Action.settle
    rw [henough]
    cases x s with
    | done a mid => simp only [Result.mapAfter]; cases f (.ok a) <;> rfl
    | stop e mid => simp only [Result.mapAfter]; cases f (.error e) <;> rfl
    | spent => rfl
  · obtain ⟨e, t, he, hstop, hrest⟩ := hshort n hn
    obtain ⟨e', he', hfe⟩ := hf e he
    refine ⟨e', t, he', ?_, hrest⟩
    unfold Action.settle
    simp only [hstop, hfe]

theorem asStmt_eq_settle (x : Action Fault α) :
    x.asStmt = x.settle (Except.mapError Interrupt.fault) := by
  funext s
  unfold Action.asStmt Action.settle
  cases x s <;> rfl

theorem Heeds.asStmt {x : Action Fault α} (hx : x.Heeds Fault.IsWrite) :
    x.asStmt.Heeds Interrupt.IsWrite := by
  rw [asStmt_eq_settle]
  exact hx.settle fun f hf => ⟨.fault f, hf, rfl⟩

/-- **A call hands on a write that failed.** -/
theorem Heeds.call {x : Action Interrupt Unit} (hx : x.Heeds Interrupt.IsWrite) (decl : FunDecl) :
    (Action.settle x.called decl.result).Heeds Fault.IsWrite := by
  refine hx.called.settle fun i hi => ?_
  cases i with
  | returned v line => exact hi.elim
  | fault f => exact ⟨f, hi, rfl⟩

end Action

namespace Eval

open Sugod.Action

/-- Heeding failing writes is compositional. -/
theorem compositional_heeds :
    Compositional (fun _ x => x.Heeds Fault.IsWrite) (fun _ x => x.Heeds Interrupt.IsWrite)
      (fun _ x => x.Heeds Interrupt.IsWrite) where
  spent := heeds_spent
  ofExcept := heeds_ofExcept
  getVar name := heeds_of_heeds_at
    (x := fun s => Action.ofExcept name.line (s.env.get name.lexeme))
    (fun _ => heeds_ofExcept _ _) fun _ _ => rfl
  assign name _ := heeds_onEnv name.line _
  checked line f := heeds_of_heeds_at (x := fun s => Action.ofExcept line (f s.callDepth))
    (fun _ => heeds_ofExcept _ _) fun _ _ => rfl
  readLine := heeds_readLine
  display := heeds_display
  builtin := heeds_builtin
  bindExpr := Heeds.bind
  call decl h := h.call decl
  asStmt := Heeds.asStmt
  returned v line := heeds_stop (Interrupt.returned v line)
  bindPart := Heeds.bind
  nested := Heeds.nested
  part h := h
  bindStmt := Heeds.bind
  declare name _ _ := (heeds_onEnv name.line _).asStmt

theorem stmts_heeds (n : Nat) (ss : List Stmt) : (stmts n ss).Heeds Interrupt.IsWrite :=
  (compositional_heeds.holds n).stmts ss

end Eval

namespace Session

/-- Writes the acknowledgement if nothing was displayed, as a last action of the program. -/
def acknowledged : Action Interrupt Unit :=
  fun s => (if s.displayed then pure () else (Action.say 0 acknowledgement).asStmt) s

/-- How a session goes on behind a program and its acknowledgement. -/
def ended : Result Interrupt Unit → Option (Except Fault Unit × Session)
  | .done () st => some (.ok (), ofState st)
  | .stop i st => some (.error i.toFault, ofState st)
  | .spent => none

theorem ended_acknowledged (st : State) : ended (acknowledged st) = some (acknowledge st) := by
  unfold acknowledged acknowledge
  cases st.displayed
  · simp only [Bool.false_eq_true, if_false, Action.asStmt, Action.say, Action.onConsole]
    rcases st.console.write acknowledgement with ⟨_ | _, _⟩ <;> rfl
  · rfl

/-- The statements of a program and the acknowledgement behind them. -/
def whole (steps : Nat) (program : Program) : Action Interrupt Unit := do
  Eval.stmts steps program
  acknowledged

theorem interpret_eq_ended (steps : Nat) (program : Program) (s : Session) :
    s.interpret steps program = ended (whole steps program s.state) := by
  unfold interpret whole
  rw [Action.bind_apply]
  cases Eval.stmts steps program s.state with
  | done _ st => exact (ended_acknowledged st).symm
  | stop i st => rfl
  | spent => rfl

theorem whole_heeds (steps : Nat) (program : Program) :
    (whole steps program).Heeds Interrupt.IsWrite := by
  refine (Eval.stmts_heeds steps program).bind fun _ _ _ _ => ?_
  refine Action.heeds_of_heeds_at
    (x := fun s₀ => if s₀.displayed then pure () else (Action.say 0 acknowledgement).asStmt)
    (fun s₀ => ?_) fun _ _ => rfl
  split
  · exact (Action.heeds_ofExcept 0 (.ok ())).asStmt
  · exact (Action.heeds_say 0 acknowledgement).asStmt

theorem ended_mapAfter (r : Result Interrupt Unit) (k : Nat) :
    ended (r.mapAfter (State.limit k)) = (ended r).map fun e => (e.1, e.2.limit k) := by
  cases r <;> rfl

theorem after?_of_ended {r : Result Interrupt Unit} {e : Except Fault Unit} {s : Session}
    (h : ended r = some (e, s)) : ∃ st, r.after? = some st ∧ st.console = s.console := by
  cases r <;> cases h <;> exact ⟨_, rfl, rfl⟩

end Session

theorem Console.output_of_writes {c c' : Console} {ws : List String}
    (h : c'.writes = ws.reverse ++ c.writes) : c'.output = c.output ++ String.join ws := by
  unfold output
  rw [h, List.reverse_append, List.reverse_reverse, String.join_append]

/-- **A failing write ends the run at once.** Let a program end on a console whose writes never
fail, after having written `ws`. With room for these writes the run ends with the same result, in
the same session up to the room that is left. With room for fewer it fails because of a write, and
has written the first ones, as many as there was room for. -/
theorem failing_write_ends (steps : Nat) (program : Program) (s s' : Session)
    (result : Except Fault Unit) (never : s.console.writesLeft = none)
    (h : s.interpret steps program = some (result, s')) :
    ∃ ws : List String, s'.console.writes = ws.reverse ++ s.console.writes ∧
      (∀ n, ws.length ≤ n →
        (s.limit n).interpret steps program = some (result, s'.limit (n - ws.length))) ∧
      ∀ n, n < ws.length → ∃ line t,
        (s.limit n).interpret steps program = some (.error ⟨.console .write, line⟩, t) ∧
        t.console.writes = (ws.take n).reverse ++ s.console.writes ∧
        t.console.output = s.console.output ++ String.join (ws.take n) := by
  rw [Session.interpret_eq_ended] at h
  obtain ⟨st, hafter, hconsole⟩ := Session.after?_of_ended h
  obtain ⟨ws, -, hwrites, henough, hshort⟩ :=
    Session.whole_heeds steps program s.state st never hafter
  rw [hconsole] at hwrites
  refine ⟨ws, hwrites, fun n hn => ?_, fun n hn => ?_⟩
  · obtain ⟨k, rfl⟩ := Nat.exists_eq_add_of_le hn
    rw [Session.interpret_eq_ended, Nat.add_sub_cancel_left]
    show Session.ended (Session.whole steps program (s.state.limit _)) = _
    rw [henough, Session.ended_mapAfter, h]
    rfl
  · obtain ⟨i, t, hi, hstop, -, htwrites⟩ := hshort n hn
    have hrun : (s.limit n).interpret steps program =
        some (.error i.toFault, Session.ofState t) := by
      rw [Session.interpret_eq_ended]
      show Session.ended (Session.whole steps program (s.state.limit n)) = _
      rw [hstop]
      rfl
    cases i with
    | returned v line => exact hi.elim
    | fault f =>
      obtain ⟨cause, line⟩ := f
      obtain rfl : cause = .console .write := hi
      exact ⟨line, Session.ofState t, hrun, htwrites, Console.output_of_writes htwrites⟩

/-- Asks for a line and displays it, and then calls a function that displays a letter. -/
def echoing : Program :=
  let text (s : String) : Expr := .literal (.str s) 1
  let call (name : String) (args : List Expr) : Expr :=
    .call (.var ⟨.identifier name, name, 1⟩) ⟨.mark .rightParen, ")", 1⟩ args
  [.fn ⟨⟨.identifier "f", "f", 1⟩, [], [.display (text "a")], none⟩,
    .display (call "scanString" [text "?"]), .expr (call "f" [])]

theorem failing_write_ends_echoing :
    (∃ s', (Session.start { input := [.ok "x"] }).interpret 9 echoing = some (.ok (), s') ∧
      s'.console.writes = ["a", "x", "?\n"]) ∧
    ∃ line t, ((Session.start { input := [.ok "x"] }).limit 2).interpret 9 echoing =
      some (.error ⟨.console .write, line⟩, t) ∧ t.console.writes = ["x", "?\n"] := by
  have hwritten : ((Session.start { input := [.ok "x"] }).interpret 9 echoing).map
      (fun r => (r.1, r.2.console.writes)) = some (.ok (), ["a", "x", "?\n"]) := by
    decide +kernel
  obtain ⟨⟨r, s'⟩, hrun, hr⟩ := Option.map_eq_some_iff.mp hwritten
  obtain ⟨rfl, hwrites⟩ : r = .ok () ∧ s'.console.writes = ["a", "x", "?\n"] := by
    simpa using hr
  obtain ⟨ws, hws, -, hshort⟩ := failing_write_ends 9 echoing _ s' (.ok ()) rfl hrun
  obtain rfl : ws = ["?\n", "x", "a"] := by
    have hreverse : ws.reverse ++ [] = ["a", "x", "?\n"] := hws.symm.trans hwrites
    simpa using congrArg List.reverse hreverse
  obtain ⟨line, t, hlimited, htwrites, -⟩ := hshort 2 (by decide)
  exact ⟨⟨s', hrun, hwrites⟩, line, t, hlimited, htwrites⟩

end Sugod
