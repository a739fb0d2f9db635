import Sugod.Proofs.Compositional

/-!
# What a line of input does

`DAWAT` takes a line of input and assigns its values to variables, one after another. The main
statement is `accept_effect`: whether that succeeds can be told from the state before, as if all the
assignments were made at once, and if it fails, the variables in front of the first one that does
not fit have been assigned and nothing else has changed.

`Env.Received` is what a list of assignments does as a whole. A variable has the value of its last
occurrence in the list, and all other variables are as before. It is put together from single
assignments by `Env.Received.cons`, because none of them makes a difference to what the following
names mean and to what their variables admit.
-/

set_option autoImplicit false

namespace Sugod

/-- The value of the last target that has a name. -/
def lastFor (targets : List (Token × Value)) (key : String) : Option Value :=
  (targets.reverse.find? fun target => target.1.lexeme == key).map Prod.snd

theorem lastFor_cons (t : Token) (v : Value) (targets : List (Token × Value)) (key : String) :
    lastFor ((t, v) :: targets) key =
      (lastFor targets key).or (if t.lexeme = key then some v else none) := by
  unfold lastFor
  rw [List.reverse_cons, List.find?_append]
  cases htargets : targets.reverse.find? fun target => target.1.lexeme == key with
  | some target => rfl
  | none =>
    by_cases hkey : t.lexeme = key
    · simp [hkey]
    · simp [hkey]

theorem exists_lastFor {targets : List (Token × Value)} {target : Token × Value}
    (h : target ∈ targets) : ∃ v, lastFor targets target.1.lexeme = some v := by
  refine Option.isSome_iff_exists.mp ?_
  rw [lastFor, Option.isSome_map, List.find?_isSome]
  exact ⟨target, List.mem_reverse.mpr h, beq_self_eq_true _⟩

namespace Env

/-! ## Many assignments as one -/

/-- The variables of an environment after assignments that were made in order: those that the
targets mean have the values of their last occurrences, and every other variable is as before. -/
structure Received (env : Env) (targets : List (Token × Value)) (env' : Env) : Prop where
  shape : SameShape env env'
  resolve : ∀ key, env'.resolve key = env.resolve key
  given : ∀ key v, lastFor targets key = some v → ∀ id slot, env.resolve key = some id →
    (env.slotsAt id).find? key = some slot →
    (env'.slotsAt id).find? key = some { slot with value := some v }
  others : ∀ id key, (env.resolve key = some id → lastFor targets key = none) →
    (env'.slotsAt id).find? key = (env.slotsAt id).find? key

variable {env env' : Env} {targets : List (Token × Value)}

theorem received_nil (env : Env) : env.Received [] env :=
  ⟨.refl env, fun _ => rfl, fun _ _ h => (nomatch h), fun _ _ _ => rfl⟩

/-- One assignment, and then the others. -/
theorem Received.cons {id : ScopeId} {t : Token} {v : Value} (hid : env.resolve t.lexeme = some id)
    (h : (env.store id t.lexeme v).Received targets env') :
    env.Received ((t, v) :: targets) env' where
  shape := (sameShape_modifySlots env _ id).trans h.shape
  resolve key := by rw [h.resolve, resolve_store]
  given := by
    intro key w hlast other slot hother hslot
    have hother' := hother
    rw [← resolve_store env id t.lexeme v] at hother'
    rw [lastFor_cons] at hlast
    cases hrest : lastFor targets key with
    | some w' =>
      -- A later target has the last word, whatever this one has stored.
      obtain rfl : w' = w := by simpa [hrest] using hlast
      obtain ⟨old, hold⟩ := exists_find?_store env id t.lexeme v hslot
      exact h.given key w' hrest other { slot with value := old } hother' hold
    | none =>
      obtain ⟨hkey, rfl⟩ : t.lexeme = key ∧ v = w := by simpa [hrest] using hlast
      obtain rfl : other = id := Option.some.inj (hother.symm.trans (hkey ▸ hid))
      rw [h.others other key fun _ => hrest, find?_store, if_pos ⟨rfl, hkey.symm⟩, hslot]
      rfl
  others := by
    intro other key hfree
    have hne : ¬ (other = id ∧ key = t.lexeme) := by
      rintro ⟨rfl, rfl⟩
      have hlast := hfree hid
      rw [lastFor_cons, if_pos rfl] at hlast
      simp at hlast
    rw [h.others other key fun hother => ?_, find?_store, if_neg hne]
    rw [resolve_store] at hother
    have hlast := hfree hother
    rw [lastFor_cons, Option.or_eq_none_iff] at hlast
    exact hlast.1

/-- A target that was admitted reads the value of its last occurrence. -/
theorem Received.get (h : env.Received targets env') {target : Token × Value}
    (hmem : target ∈ targets) (hadmits : env.Admits target.1.lexeme target.2) :
    ∃ v, lastFor targets target.1.lexeme = some v ∧ env'.get target.1.lexeme = .ok v := by
  obtain ⟨v, hlast⟩ := exists_lastFor hmem
  obtain ⟨slot, ty, hlookup, -⟩ := hadmits
  obtain ⟨id, hid, hslot⟩ := lookup?_eq_some_iff.mp hlookup
  have hlookup' : env'.lookup? target.1.lexeme = some { slot with value := some v } :=
    lookup?_eq_some_iff.mpr ⟨id, by rw [h.resolve, hid], h.given _ v hlast id slot hid hslot⟩
  refine ⟨v, hlast, ?_⟩
  unfold Env.get
  rw [hlookup']

/-- Every target means a variable that admits its value. -/
def AdmitsAll (env : Env) (targets : List (Token × Value)) : Prop :=
  ∀ target ∈ targets, env.Admits target.1.lexeme target.2

/-- The target `t` with the value `v`, behind those in `front`, is the first that does not fit. -/
structure FirstMisfit (env : Env) (targets front : List (Token × Value)) (t : Token) (v : Value) :
    Prop where
  split : ∃ back, targets = front ++ (t, v) :: back
  fits : env.AdmitsAll front
  misfit : ¬ env.Admits t.lexeme v

theorem admitsAll_store {id : ScopeId} {name : String} {v : Value} (h : env.AdmitsAll targets) :
    (env.store id name v).AdmitsAll targets :=
  fun target hmem => (admits_store ..).mpr (h target hmem)

/-- Of targets that do not all fit there is a first one. -/
theorem exists_firstMisfit (h : ¬ env.AdmitsAll targets) :
    ∃ front t v, env.FirstMisfit targets front t v := by
  induction targets with
  | nil => exact absurd (List.forall_mem_nil _) h
  | cons target targets ih =>
    by_cases htarget : env.Admits target.1.lexeme target.2
    · have hrest : ¬ env.AdmitsAll targets := fun hall =>
        h (List.forall_mem_cons.mpr ⟨htarget, hall⟩)
      obtain ⟨front, t, v, ⟨back, rfl⟩, hfront, hmisfit⟩ := ih hrest
      exact ⟨target :: front, t, v, ⟨back, rfl⟩, List.forall_mem_cons.mpr ⟨htarget, hfront⟩,
        hmisfit⟩
    · exact ⟨[], target.1, target.2, ⟨targets, rfl⟩, List.forall_mem_nil _, htarget⟩

end Env

namespace Action

/-! ## Running the assignments -/

variable {s : State} {targets : List (Token × Value)}

theorem assign_of_admits {t : Token} {v : Value} (h : s.env.Admits t.lexeme v) :
    ∃ id, s.env.resolve t.lexeme = some id ∧
      assign t v s = .done () { s with env := s.env.store id t.lexeme v } := by
  obtain ⟨id, hid, hassign⟩ := Env.assign_of_admits h
  refine ⟨id, hid, ?_⟩
  unfold assign onEnv
  simp only [hassign]

/-- **Assignments that are all admitted before the first one are all made.** -/
theorem assignAll_of_admitsAll (h : s.env.AdmitsAll targets) :
    ∃ env', assignAll targets s = .done () { s with env := env' } ∧
      s.env.Received targets env' := by
  induction targets generalizing s with
  | nil => exact ⟨s.env, rfl, Env.received_nil s.env⟩
  | cons target targets ih =>
    obtain ⟨t, v⟩ := target
    obtain ⟨htarget, htargets⟩ := List.forall_mem_cons.mp h
    obtain ⟨id, hid, hassign⟩ := assign_of_admits htarget
    obtain ⟨env', hrest, hreceived⟩ :=
      @ih { s with env := s.env.store id t.lexeme v } (Env.admitsAll_store htargets)
    refine ⟨env', ?_, hreceived.cons hid⟩
    rw [assignAll, bind_of_done hassign]
    exact hrest

/-- **The first assignment that is not admitted ends them**, with those in front of it made. -/
theorem assignAll_of_misfit {front : List (Token × Value)} {t : Token} {v : Value}
    (hfront : s.env.AdmitsAll front) (h : ¬ s.env.Admits t.lexeme v)
    (back : List (Token × Value)) :
    ∃ c env', s.env.assign t.lexeme v = .error c ∧
      assignAll (front ++ (t, v) :: back) s = .stop ⟨c, t.line⟩ { s with env := env' } ∧
      s.env.Received front env' := by
  induction front generalizing s with
  | nil =>
    obtain ⟨c, hc⟩ : ∃ c, s.env.assign t.lexeme v = .error c := by
      rw [Env.admits_iff_ne_error] at h
      push Not at h
      exact h
    refine ⟨c, s.env, hc, ?_, Env.received_nil s.env⟩
    rw [List.nil_append, assignAll, bind_apply]
    unfold assign onEnv
    simp only [hc]
  | cons target front ih =>
    obtain ⟨u, w⟩ := target
    obtain ⟨htarget, hfront⟩ := List.forall_mem_cons.mp hfront
    obtain ⟨id, hid, hassign⟩ := assign_of_admits htarget
    obtain ⟨c, env', hc, hrest, hreceived⟩ :=
      @ih { s with env := s.env.store id u.lexeme w } (Env.admitsAll_store hfront)
        (mt (Env.admits_store ..).mp h)
    refine ⟨c, env', (Env.assign_store_eq_error_iff ..).mp hc, ?_, hreceived.cons hid⟩
    rw [List.cons_append, assignAll, bind_of_done hassign]
    exact hrest

end Action

/-! ## One line -/

/-- The state in which a line of input has been taken and `rest` is left. -/
def State.tookLine (s : State) (rest : List (Except ConsoleFailure String)) : State :=
  { s with console := { s.console with input := rest } }

/-- The names that accept input, each with its value from a line. -/
def targetsOf (names : List Token) (line : String) : List (Token × Value) :=
  names.zip (Entry.values line)

/-- What is reported if a line does not have one value for each name, at the line of the first. -/
def miscount (names : List Token) (line : String) : Fault :=
  ⟨if names.length < (Entry.values line).length then .tooManyValues names.length
    else .tooFewValues names.length (Entry.values line).length,
    (names.head?.map Token.line).getD 0⟩

namespace Eval

open Sugod.Action

variable {names : List Token} {s : State} {line : String}
  {rest : List (Except ConsoleFailure String)}

/-- What is left to do when a line of input has been taken. -/
theorem accept_of_input (hreads : s.console.readsFail = false)
    (hinput : s.console.input = .ok line :: rest) :
    accept names s = (do
      let values ← Action.ofExcept ((names.head?.map Token.line).getD 0) (entries names.length line)
      assignAll (names.zip values)) (s.tookLine rest) := by
  have hread : s.console.read = (.ok (some line), { s.console with input := rest }) := by
    unfold Console.read
    simp [hreads, hinput]
  have hline : ∀ number, readLine number s = .done line (s.tookLine rest) := by
    intro number
    unfold readLine onConsole
    simp only [hread]
    rfl
  unfold accept
  rw [bind_of_done (hline _)]

/-- A wrong number of values is reported, and nothing is assigned. -/
theorem accept_of_length_ne (hreads : s.console.readsFail = false)
    (hinput : s.console.input = .ok line :: rest)
    (h : (Entry.values line).length ≠ names.length) :
    accept names s = .stop (miscount names line) (s.tookLine rest) := by
  have hentries : entries names.length line = .error (miscount names line).cause := by
    unfold entries miscount
    by_cases hmany : names.length < (Entry.values line).length
    · simp only [hmany, if_true]
    · have hfew : (Entry.values line).length < names.length := by omega
      simp only [hmany, hfew, if_true, if_false]
  rw [accept_of_input hreads hinput, hentries]
  rfl

/-- A line with the right number of values is as good as the assignments. -/
theorem accept_of_length_eq (hreads : s.console.readsFail = false)
    (hinput : s.console.input = .ok line :: rest)
    (h : (Entry.values line).length = names.length) :
    accept names s = assignAll (targetsOf names line) (s.tookLine rest) := by
  have hentries : entries names.length line = .ok (Entry.values line) := by
    unfold entries
    simp [h]
  rw [accept_of_input hreads hinput, hentries]
  rfl

end Eval

/-- **The effect of accepting input.** Let there be a next line of input. It is taken, and nothing
is written. If the line has another number of values than there are targets, this is reported and
the variables are as before. Otherwise all is done exactly if, in the state before, every target
means a mutable variable of the type of its value; then each target reads the value of its last
occurrence and every other variable is as before. If that is not so, there is a first target that
does not fit; the targets in front of it have received their values, every other variable is as
before, and the report has the line of that target. -/
theorem accept_effect (n : Nat) (names : List Token) (s : State) (line : String)
    (rest : List (Except ConsoleFailure String)) (hreads : s.console.readsFail = false)
    (hinput : s.console.input = .ok line :: rest) :
    ((Entry.values line).length ≠ names.length →
      Eval.stmt (n + 1) (.accept names) s =
        .stop (.fault (miscount names line)) (s.tookLine rest)) ∧
    ((Entry.values line).length = names.length →
      ((∃ s', Eval.stmt (n + 1) (.accept names) s = .done () s') ↔
        s.env.AdmitsAll (targetsOf names line)) ∧
      (s.env.AdmitsAll (targetsOf names line) → ∃ env',
        Eval.stmt (n + 1) (.accept names) s = .done () { s.tookLine rest with env := env' } ∧
        s.env.Received (targetsOf names line) env' ∧
        ∀ target ∈ targetsOf names line, ∃ v,
          lastFor (targetsOf names line) target.1.lexeme = some v ∧
          env'.get target.1.lexeme = .ok v) ∧
      (¬ s.env.AdmitsAll (targetsOf names line) → ∃ front t v c env',
        s.env.FirstMisfit (targetsOf names line) front t v ∧
        s.env.assign t.lexeme v = .error c ∧
        Eval.stmt (n + 1) (.accept names) s =
          .stop (.fault ⟨c, t.line⟩) { s.tookLine rest with env := env' } ∧
        s.env.Received front env')) := by
  have hstmt : Eval.stmt (n + 1) (.accept names) s = (Eval.accept names).asStmt s := by
    rw [Eval.stmt]
  refine ⟨fun hne => ?_, fun heq => ?_⟩
  · rw [hstmt, Action.asStmt_of_stop (Eval.accept_of_length_ne hreads hinput hne)]
  · have haccept := Eval.accept_of_length_eq hreads hinput heq
    by_cases hfits : s.env.AdmitsAll (targetsOf names line)
    · obtain ⟨env', hall, hreceived⟩ := Action.assignAll_of_admitsAll (s := s.tookLine rest) hfits
      have hdone : Eval.stmt (n + 1) (.accept names) s =
          .done () { s.tookLine rest with env := env' } := by
        rw [hstmt, Action.asStmt_of_done (haccept.trans hall)]
      refine ⟨iff_of_true ⟨_, hdone⟩ hfits, fun _ => ⟨env', hdone, hreceived, ?_⟩,
        fun hnot => absurd hfits hnot⟩
      exact fun target hmem => hreceived.get hmem (hfits target hmem)
    · obtain ⟨front, t, v, hfirst⟩ := Env.exists_firstMisfit hfits
      obtain ⟨back, hsplit⟩ := hfirst.split
      obtain ⟨c, env', hc, hstop, hreceived⟩ :=
        Action.assignAll_of_misfit (s := s.tookLine rest) hfirst.fits hfirst.misfit back
      rw [← hsplit] at hstop
      have hstopped : Eval.stmt (n + 1) (.accept names) s =
          .stop (.fault ⟨c, t.line⟩) { s.tookLine rest with env := env' } := by
        rw [hstmt, Action.asStmt_of_stop (haccept.trans hstop)]
      refine ⟨iff_of_false ?_ hfits, fun hall => absurd hall hfits,
        fun _ => ⟨front, t, v, c, env', hfirst, hc, hstopped, hreceived⟩⟩
      rintro ⟨s', hs'⟩
      rw [hstopped] at hs'
      cases hs'

/-! ## A name that occurs twice -/

/-- A state with a number `x`, a truth value `y` and two lines of input. -/
def asked : State where
  env := { globals := [("x", ⟨some .int, some (.int 5), true⟩), ("y", ⟨some .bool, none, true⟩)] }
  console := { input := [.ok "1, OO, 3", .ok "4"] }

/-- `DAWAT x, y, x` -/
def askedFor : List Token :=
  [⟨.identifier "x", "x", 1⟩, ⟨.identifier "y", "y", 1⟩, ⟨.identifier "x", "x", 2⟩]

/-- Both values for `x` fit, and it keeps the last one. -/
theorem accept_effect_twice :
    Entry.values "1, OO, 3" = [.int 1, .bool true, .int 3] ∧
    ∃ env', Eval.stmt 1 (.accept askedFor) asked =
        .done () { asked with console := { input := [.ok "4"] }, env := env' } ∧
      env'.get "x" = .ok (.int 3) ∧ env'.get "y" = .ok (.bool true) := by
  have hvalues : Entry.values "1, OO, 3" = [.int 1, .bool true, .int 3] := rfl
  have hglobal : ∀ {name : String} {slot : Slot},
      (asked.env.slotsAt globalScope).find? name = some slot →
      asked.env.lookup? name = some slot := by
    intro name slot hslot
    refine Env.lookup?_eq_some_iff.mpr ⟨globalScope, ?_, hslot⟩
    show asked.env.resolveFrom name globalScope = _
    rw [Env.resolveFrom_eq, hslot]
    rfl
  have hfits : ∀ target ∈ askedFor.zip [.int 1, .bool true, .int 3],
      asked.env.Admits target.1.lexeme target.2 :=
    List.forall_mem_cons.mpr ⟨⟨_, _, hglobal rfl, rfl, rfl, rfl⟩,
      List.forall_mem_cons.mpr ⟨⟨_, _, hglobal rfl, rfl, rfl, rfl⟩,
        List.forall_mem_cons.mpr ⟨⟨_, _, hglobal rfl, rfl, rfl, rfl⟩, List.forall_mem_nil _⟩⟩⟩
  have heffect := accept_effect 0 askedFor asked "1, OO, 3" [.ok "4"] rfl rfl
  rw [hvalues] at heffect
  obtain ⟨env', hrun, -, hget⟩ := (heffect.2 rfl).2.1 hfits
  obtain ⟨⟨v, hv, hx⟩, hget⟩ := List.forall_mem_cons.mp hget
  obtain ⟨⟨w, hw, hy⟩, -⟩ := List.forall_mem_cons.mp hget
  obtain rfl : Value.int 3 = v := Option.some.inj hv
  obtain rfl : Value.bool true = w := Option.some.inj hw
  exact ⟨hvalues, env', hrun, hx, hy⟩

end Sugod
