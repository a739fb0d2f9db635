import Sugod.Proofs.Layout

/-!
# The lines of reports

Every error that a source ends with is reported at a line on which one of its tokens stands. The one
exception is the acknowledgement, which belongs to no token and is reported at line 0
(`reported_line_of_token`).

Nothing that reads tokens or runs a program looks at a line number; lines are only handed on. So a
renumbering that keeps the lines of all tokens keeps the line of every report, and a line that no
token stands on is no report's line: a renumbering could move it and nothing else
(`exists_token_of_fixed`).
-/

set_option autoImplicit false

namespace Sugod

/-- A renumbering keeps the lines of some tokens. -/
def Token.AllFixed (f : Nat → Nat) (ts : List Token) : Prop :=
  ∀ t ∈ ts, f t.line = t.line

/-- **A line that is kept whenever those of some tokens are is one of theirs.** -/
theorem exists_token_of_fixed {ts : List Token} {line : Nat}
    (h : ∀ f : Nat → Nat, Token.AllFixed f ts → f line = line) : ∃ t ∈ ts, t.line = line := by
  by_contra hnone
  have hfixed : Token.AllFixed (fun m => if m = line then line + 1 else m) ts := by
    intro t ht
    have hne : t.line ≠ line := fun hline => hnone ⟨t, ht, hline⟩
    exact if_neg hne
  have hmoved : line + 1 = line := by simpa using h _ hfixed
  exact Nat.succ_ne_self line hmoved

theorem Token.AllFixed.map_renumber {f : Nat → Nat} {ts : List Token} (h : Token.AllFixed f ts) :
    ts.map (Token.renumber f) = ts := by
  have hsame : ∀ t ∈ ts, t.renumber f = id t := by
    intro t ht
    rw [Token.renumber, h t ht]
    rfl
  rw [List.map_congr_left hsame, List.map_id]

namespace Grammar

variable {f : Nat → Nat} {tokens : List Token}

/-- An error of parsing stands on the line of a token. -/
theorem line_of_error (hne : tokens ≠ []) {e : ParseError} (h : parse tokens = .error e) :
    ∃ t ∈ tokens, t.line = e.line := by
  refine exists_token_of_fixed fun f hf => ?_
  have hparse := parse_renumber (f := f) hne
  rw [hf.map_renumber, h] at hparse
  exact (congrArg ParseError.line (Except.error.inj hparse)).symm

/-- All lines of an accepted program are those of its tokens. -/
theorem renumber_of_parse (hne : tokens ≠ []) (hf : Token.AllFixed f tokens) {p : Program}
    (h : parse tokens = .ok p) : p.map (Stmt.renumber f) = p := by
  have hparse := parse_renumber (f := f) hne
  rw [hf.map_renumber, h] at hparse
  exact (Except.ok.inj hparse).symm

end Grammar

namespace Session

/-- There are no lines in a new session. -/
theorem start_renumber (f : Nat → Nat) (console : Console) :
    (start console).state.renumber f = (start console).state := by
  have hlocals : initialEnv.locals.map (Scope.renumber f) = initialEnv.locals := Array.map_empty
  have henv : initialEnv.renumber f = initialEnv := by
    unfold Env.renumber
    rw [hlocals]
    rfl
  show State.mk (initialEnv.renumber f) console 0 false = _
  rw [henv]
  rfl

/-- The reason for which an accepted program stops stands on the line of a token. -/
theorem line_of_stop {tokens : List Token} (hne : tokens ≠ []) {p : Program}
    (hp : Grammar.parse tokens = .ok p) {console : Console} {n : Nat} {i : Interrupt} {st : State}
    (h : Eval.stmts n p (start console).state = .stop i st) :
    ∃ t ∈ tokens, t.line = i.toFault.line := by
  refine exists_token_of_fixed fun f hf => ?_
  have hprogram := Grammar.renumber_of_parse hne hf hp
  obtain ⟨decls, ss, rfl, hregular⟩ := Grammar.accepted_regular hp
  have hstart : (start console).state.env.Declared [] := declared_initialEnv
  have hrun := Eval.stmts_renumber (f := f) (fun known => (hregular known).1)
    (fun known => (hregular known).2) (fun _ => List.forall_mem_nil _) hstart n
  rw [hprogram, start_renumber, h] at hrun
  have hreason : i = i.renumber f := (Result.stop.inj hrun).1
  have hfault : i.toFault = i.toFault.renumber f := by
    rw [← i.toFault_renumber, ← hreason]
  exact (congrArg Fault.line hfault).symm

/-- The program of a source is run to its end without displaying anything, and then it cannot be
acknowledged, since this write fails. -/
def Unacknowledged (n : Nat) (source : String) (s : Session) : Prop :=
  ∃ p st, read source = .ok p ∧ Eval.stmts n p s.state = .done () st ∧ st.displayed = false ∧
    (st.console.write acknowledgement).1 = .error .write

/-- An accepted program fails on the line of a token, or it cannot be acknowledged. -/
theorem line_of_interpret {source : String} (hne : (Scan.ofSource source).tokens ≠ [])
    {p : Program} (hp : Grammar.parse (Scan.ofSource source).tokens = .ok p)
    (hread : read source = .ok p) {console : Console} {n : Nat} {f : Fault} {s' : Session}
    (h : (start console).interpret n p = some (.error f, s')) :
    (∃ t ∈ (Scan.ofSource source).tokens, t.line = f.line) ∨
      (f = ⟨.console .write, 0⟩ ∧ (start console).Unacknowledged n source) := by
  rcases interpret_cases h with ⟨st, hrun, hack⟩ | ⟨i, st, hrun, hf, -⟩
  · obtain ⟨rfl, hshown, hwrite⟩ := of_acknowledge_eq_error hack
    exact .inr ⟨rfl, p, st, hread, hrun, hshown, hwrite⟩
  · obtain rfl : f = i.toFault := Except.error.inj hf
    exact .inl (line_of_stop hne hp hrun)

end Session

/-- **Every report names a line of the source.** When a source fails in a new session, whatever its
console does, an error of parsing is reported at the line of a token, and a fault too, unless it is
that of an acknowledgement that could not be written; this one is reported at line 0. -/
theorem reported_line_of_token (source : String) (console : Console) (n : Nat) (e : RunError)
    (s' : Session) (h : (Session.start console).run n source = some (.error e, s')) :
    (∀ pe, e = .parse pe → ∃ t ∈ (Scan.ofSource source).tokens, t.line = pe.line) ∧
    (∀ f, e = .fault f → (∃ t ∈ (Scan.ofSource source).tokens, t.line = f.line) ∨
      (f = ⟨.console .write, 0⟩ ∧ (Session.start console).Unacknowledged n source)) := by
  have hne : (Scan.ofSource source).tokens ≠ [] := by simp [Scan.ofSource, Scan.ofChars]
  rcases Session.run_cases h with
    ⟨errors, he, -⟩ | ⟨pe, hparse, he, -⟩ | ⟨p, outcome, hparse, hread, hint, he⟩
  · cases he
    exact ⟨fun _ hpe => RunError.noConfusion hpe, fun _ hf => RunError.noConfusion hf⟩
  · cases he
    refine ⟨fun pe' hpe => ?_, fun _ hf => RunError.noConfusion hf⟩
    obtain rfl : pe = pe' := RunError.parse.inj hpe
    exact Grammar.line_of_error hne hparse
  · cases outcome with
    | ok _ => cases he
    | error g =>
      cases he
      refine ⟨fun _ hpe => RunError.noConfusion hpe, fun f hf => ?_⟩
      obtain rfl : g = f := RunError.fault.inj hf
      exact Session.line_of_interpret hne hparse hread hint

/-- A function that divides by zero on a row of its own. -/
def dividingFunction : String :=
  "BUHAT NUMERO f(NUMERO n) PUNDOK \x7b\n  IULI 1 / n\n\x7d\nSUGOD\nIPAKITA: f(0)\nKATAPUSAN"

/-- A program that does nothing. -/
def idle : String :=
  "SUGOD KATAPUSAN"

theorem reported_line_of_token_dividing :
    (∃ s', (Session.start {}).run 20 dividingFunction =
      some (.error (.fault ⟨.divideByZero, 2⟩), s')) ∧
    (∃ t ∈ (Scan.ofSource dividingFunction).tokens, t.line = 2) ∧
    (∃ s', (Session.start { writesLeft := some 0 }).run 9 idle =
      some (.error (.fault ⟨.console .write, 0⟩), s')) ∧
    (Session.start { writesLeft := some 0 }).Unacknowledged 9 idle := by
  have hfault : ((Session.start {}).run 20 dividingFunction).map Prod.fst =
      some (.error (.fault ⟨.divideByZero, 2⟩)) := by decide +kernel
  have hwrite : ((Session.start { writesLeft := some 0 }).run 9 idle).map Prod.fst =
      some (.error (.fault ⟨.console .write, 0⟩)) := by decide +kernel
  obtain ⟨⟨r, s⟩, hrun, hr⟩ := Option.map_eq_some_iff.mp hfault
  obtain ⟨⟨r', s'⟩, hrun', hr'⟩ := Option.map_eq_some_iff.mp hwrite
  cases hr
  cases hr'
  have hdividing := (reported_line_of_token _ _ _ _ _ hrun).2 _ rfl
  have hidle := (reported_line_of_token _ _ _ _ _ hrun').2 _ rfl
  refine ⟨⟨s, hrun⟩, ?_, ⟨s', hrun'⟩, ?_⟩
  · exact hdividing.resolve_right fun h => by cases h.1
  · -- No token stands on line 0.
    have hlines : ∀ t ∈ (Scan.ofSource idle).tokens, t.line ≠ 0 := by decide +kernel
    exact (hidle.resolve_left fun ⟨t, ht, hline⟩ => hlines t ht hline).2

end Sugod
