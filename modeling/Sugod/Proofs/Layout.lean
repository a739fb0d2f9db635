import Sugod.Proofs.ParseLines
import Sugod.Proofs.EvalLines
import Sugod.Proofs.StoreTyping

/-!
# The layout of a source

Where the rows of a source end does not matter: two sources with the same tokens, up to their lines,
run alike in new sessions (`layout_irrelevant`). Only the lines of errors can differ, and the lines
in the functions that the variables hold.

Both runs are compared with a third one, in which all lines are 0. The functions of a program come
first, and a second function of the same name is an error; so when the statements of the block are
run, the functions in the variables have different names, and comparing them does not need the lines
(`Renumbering.ofDeclared`).
-/

set_option autoImplicit false

namespace Sugod

/-! ## Sessions with other line numbers -/

/-- A reason to stop with other line numbers. -/
def Interrupt.renumber (f : Nat → Nat) : Interrupt → Interrupt
  | .returned v line => .returned (v.map (Value.renumber f)) (f line)
  | .fault e => .fault (e.renumber f)

/-- A state with other line numbers in the values of its variables. -/
def State.renumber (f : Nat → Nat) (s : State) : State :=
  { s with env := s.env.renumber f }

/-- The result of statements with other line numbers. -/
def Result.renumber (f : Nat → Nat) : Result Interrupt Unit → Result Interrupt Unit
  | .done u s => .done u (s.renumber f)
  | .stop i s => .stop (i.renumber f) (s.renumber f)
  | .spent => .spent

/-- A session with other line numbers in the values of its variables. -/
def Session.renumber (f : Nat → Nat) (s : Session) : Session :=
  { s with env := s.env.renumber f }

namespace Renumbering

variable {ρ : Renumbering}

theorem Interrupts.eq {i i' : Interrupt} (h : ρ.Interrupts i i') : i' = i.renumber ρ.line := by
  cases h with
  | bare line => rfl
  | returned hv line => rw [hv.eq]; rfl
  | fault he => rw [he]; rfl

theorem eq_of_related {s t : State} (h : s.Related ρ.Envs t) : t = s.renumber ρ.line := by
  obtain ⟨env, console, callDepth, displayed⟩ := t
  obtain ⟨henv, rfl, rfl, rfl⟩ := h
  rw [State.renumber, ← henv.eq]

/-- Results that end in the same way up to line numbers, as an equation. -/
theorem Results.eq {r r' : Result Interrupt Unit} (h : ρ.Results ρ.Interrupts Eq r r') :
    r' = r.renumber ρ.line := by
  cases h with
  | done ha hs => rw [ha, eq_of_related hs]; rfl
  | stop he hs => rw [he.eq, eq_of_related hs]; rfl
  | spent => rfl

end Renumbering

/-! ## The functions at the start of a program -/

/-- Functions of different names are different. -/
theorem FunDecl.equal_eq_false {a b : FunDecl} (h : a.name.lexeme ≠ b.name.lexeme) :
    a.equal b = false := by
  obtain ⟨name, params, body, returnTy⟩ := a
  obtain ⟨name', params', body', returnTy'⟩ := b
  have hname : name.lexeme ≠ name'.lexeme := h
  simp [FunDecl.equal, Token.equal, hname]

/-- The functions in the variables are among `decls`, which have different names, and these names
are taken in the current scope. -/
structure Env.Declared (decls : List FunDecl) (env : Env) : Prop where
  current_lt : env.current < env.depth
  distinct : ∀ a ∈ decls, ∀ b ∈ decls, a.name.lexeme = b.name.lexeme → a = b
  taken : ∀ a ∈ decls, ((env.slotsAt env.current).find? a.name.lexeme).isSome
  known : env.AllSlots fun slot => ∀ v ∈ slot.value, v.Known (· ∈ decls)

/-- One more function is declared. -/
theorem Env.Declared.cons {decls : List FunDecl} {env env' : Env} (h : env.Declared decls)
    {decl : FunDecl}
    (hdeclare : env.declare decl.name.lexeme ⟨none, some (.fn decl), false⟩ = .ok env') :
    env'.Declared (decl :: decls) := by
  unfold Env.declare at hdeclare
  by_cases hfound : ((env.slotsAt env.current).find? decl.name.lexeme).isSome
  · rw [if_pos hfound] at hdeclare
    cases hdeclare
  · rw [if_neg hfound] at hdeclare
    cases hdeclare
    -- The name was free, so none of the functions before has it.
    have hfresh : ∀ a ∈ decls, a.name.lexeme ≠ decl.name.lexeme := by
      intro a ha hname
      rw [← hname] at hfound
      exact hfound (h.taken a ha)
    constructor
    case current_lt =>
      rw [current_modifySlots, depth_modifySlots]
      exact h.current_lt
    case distinct =>
      intro a ha b hb hname
      rcases List.mem_cons.mp ha with ha' | ha' <;> rcases List.mem_cons.mp hb with hb' | hb'
      · rw [ha', hb']
      · rw [ha'] at hname
        exact absurd hname.symm (hfresh b hb')
      · rw [hb'] at hname
        exact absurd hname (hfresh a ha')
      · exact h.distinct a ha' b hb' hname
    case taken =>
      intro a ha
      rw [current_modifySlots, slotsAt_modifySlots_self h.current_lt, Slots.find?_cons]
      by_cases hname : a.name.lexeme = decl.name.lexeme
      · rw [if_pos hname]
        rfl
      · rw [if_neg hname]
        refine h.taken a ((List.mem_cons.mp ha).resolve_left fun hdecl => ?_)
        exact hname (congrArg (·.name.lexeme) hdecl)
    case known =>
      have hknown : env.AllSlots fun slot => ∀ v ∈ slot.value, v.Known (· ∈ decl :: decls) :=
        fun id name slot hslot v hv d hd =>
          List.mem_cons_of_mem _ (h.known id name slot hslot v hv d hd)
      refine hknown.cons _ _ fun v hv d hd => ?_
      obtain rfl := Option.some.inj hv
      cases hd
      exact List.mem_cons_self

/-- Functions of different names are compared in the same way with other line numbers. -/
def Renumbering.ofDeclared (f : Nat → Nat) {decls : List FunDecl} {env : Env}
    (h : env.Declared decls)
    (hregular : ∀ decl ∈ decls, ∀ s ∈ decl.body, s.Regular (· ∈ decls) true) : Renumbering where
  line := f
  known := (· ∈ decls)
  regular hdecl := hregular _ hdecl
  equal {a b} ha hb := by
    by_cases hname : a.name.lexeme = b.name.lexeme
    · obtain rfl := h.distinct a ha b hb hname
      exact a.equal_renumber_self f
    · rw [FunDecl.equal_eq_false hname]
      refine FunDecl.equal_eq_false ?_
      rw [FunDecl.name_renumber, FunDecl.name_renumber]
      exact hname

namespace Eval

/-- A function at the start of some statements is declared, or its name is taken. -/
theorem stmts_fn (n : Nat) (decl : FunDecl) (ss : List Stmt) (st : State) :
    stmts (n + 2) (.fn decl :: ss) st =
      match st.env.declare decl.name.lexeme ⟨none, some (.fn decl), false⟩ with
      | .ok env => stmts (n + 1) ss { st with env := env }
      | .error c => .stop (.fault ⟨c, decl.name.line⟩) st := by
  rw [Eval.stmts, Eval.stmt, Action.bind_apply]
  simp only [Action.asStmt, Action.declare, Action.onEnv]
  cases st.env.declare decl.name.lexeme ⟨none, some (.fn decl), false⟩ <;> rfl

variable {f : Nat → Nat}

/-- **A program whose functions come first runs alike with other line numbers.** -/
theorem stmts_renumber {decls : List FunDecl} {ss : List Stmt}
    (hdecls : ∀ known, ∀ decl ∈ decls, decl.Regular known)
    (hss : ∀ known, ∀ s ∈ ss, s.Regular known false) {seen : List FunDecl}
    (hseen : ∀ known, ∀ decl ∈ seen, decl.Regular known) {st : State}
    (hst : st.env.Declared seen) (n : Nat) :
    stmts n ((decls.map Stmt.fn ++ ss).map (Stmt.renumber f)) (st.renumber f) =
      (stmts n (decls.map Stmt.fn ++ ss) st).renumber f := by
  induction decls generalizing n seen st with
  | nil =>
    -- All functions have been declared, so it is known which ones the statements can meet.
    let ρ := Renumbering.ofDeclared f hst fun decl hdecl => (hseen _ decl hdecl).body
    have hrelated : st.Related ρ.Envs (st.renumber f) := ⟨⟨rfl, hst.known⟩, rfl, rfl, rfl⟩
    exact ((ρ.followsEval n).stmts (hss ρ.known) _ _ hrelated).eq
  | cons decl decls ih =>
    rcases n with _ | _ | n
    · rfl
    · rfl
    · have hdeclare : (st.renumber f).env.declare decl.name.lexeme
          ⟨none, some (.fn (decl.renumber f)), false⟩ =
        (st.env.declare decl.name.lexeme ⟨none, some (.fn decl), false⟩).map (Env.renumber f) :=
        st.env.declare_renumber f decl.name.lexeme ⟨none, some (.fn decl), false⟩
      have hname : (decl.renumber f).name.lexeme = decl.name.lexeme := by
        rw [FunDecl.name_renumber]
        rfl
      show stmts (n + 2) (.fn (decl.renumber f) :: _) (st.renumber f) =
        (stmts (n + 2) (.fn decl :: (decls.map Stmt.fn ++ ss)) st).renumber f
      rw [stmts_fn, stmts_fn, hname, hdeclare]
      cases hout : st.env.declare decl.name.lexeme ⟨none, some (.fn decl), false⟩ with
      | error c =>
        -- The name is taken, and nothing of the rest is run.
        rw [FunDecl.name_renumber]
        rfl
      | ok env =>
        have hmore : ∀ known, ∀ d ∈ decl :: seen, d.Regular known := fun known =>
          List.forall_mem_cons.mpr ⟨hdecls known decl List.mem_cons_self, hseen known⟩
        have hdeclared : ({ st with env := env } : State).env.Declared (decl :: seen) :=
          hst.cons hout
        exact ih (fun known d hd => hdecls known d (List.mem_cons_of_mem _ hd)) hmore hdeclared
          (n + 1)

end Eval

/-! ## Programs and sources -/

theorem Interrupt.toFault_renumber (f : Nat → Nat) (i : Interrupt) :
    (i.renumber f).toFault = i.toFault.renumber f := by
  cases i <;> rfl

namespace Session

variable {f : Nat → Nat}

theorem declared_initialEnv : initialEnv.Declared [] where
  current_lt := Nat.lt_succ_self 0
  distinct := List.forall_mem_nil _
  taken := List.forall_mem_nil _
  known := allSlots_initialEnv fun b v hv decl hdecl => by
    obtain rfl := Option.some.inj hv
    cases hdecl

/-- The acknowledgement of a program fails on line 0, if it does. -/
theorem acknowledge_renumber (hf : f 0 = 0) (st : State) :
    acknowledge (st.renumber f) =
      ((acknowledge st).1.mapError (Fault.renumber f), (acknowledge st).2.renumber f) := by
  unfold acknowledge
  cases hd : st.displayed with
  | true =>
    have hshown : (st.renumber f).displayed = true := hd
    rw [if_pos hshown]
    rfl
  | false =>
    have hshown : ¬(st.renumber f).displayed = true := by
      rw [show (st.renumber f).displayed = false from hd]
      exact Bool.false_ne_true
    have hconsole : (st.renumber f).console = st.console := rfl
    rw [if_neg hshown, hconsole]
    cases st.console.write acknowledgement with
    | mk outcome console =>
      cases outcome with
      | ok _ => rfl
      | error e =>
        show (Except.error (⟨.console e, 0⟩ : Fault), _) = (Except.error ⟨.console e, f 0⟩, _)
        rw [hf]
        rfl

/-- An accepted program runs alike with other line numbers. -/
theorem interpret_renumber (hf : f 0 = 0) {tokens : List Token} {p : Program}
    (hp : Grammar.parse tokens = .ok p) {session : Session} (hs : session.env.Declared [])
    (n : Nat) :
    (session.renumber f).interpret n (p.map (Stmt.renumber f)) =
      (session.interpret n p).map fun out =>
        (out.1.mapError (Fault.renumber f), out.2.renumber f) := by
  obtain ⟨decls, ss, rfl, hregular⟩ := Grammar.accepted_regular hp
  have hstart : session.state.env.Declared [] := hs
  have hstmts := Eval.stmts_renumber (f := f) (fun known => (hregular known).1)
    (fun known => (hregular known).2) (fun _ => List.forall_mem_nil _) hstart n
  have hstate : (session.renumber f).state = session.state.renumber f := rfl
  unfold interpret
  rw [hstate, hstmts]
  cases Eval.stmts n (decls.map Stmt.fn ++ ss) session.state with
  | done u st => exact congrArg some (acknowledge_renumber hf st)
  | stop i st =>
    show some (Except.error (i.renumber f).toFault, _) =
      some (Except.error (i.toFault.renumber f), _)
    rw [i.toFault_renumber]
    rfl
  | spent => rfl

/-- Running a source that has no errors of scanning. -/
theorem run_of_errors {source : String} (h : (Scan.ofSource source).errors = []) (n : Nat)
    (session : Session) :
    session.run n source =
      match Grammar.parse (Scan.ofSource source).tokens with
      | .error e => some (.error (.parse e), session)
      | .ok p => (session.interpret n p).map fun out => (out.1.mapError .fault, out.2) := by
  simp only [run, read, h, List.isEmpty_nil, if_true]
  cases Grammar.parse (Scan.ofSource source).tokens with
  | error e => rfl
  | ok p =>
    simp only
    rcases session.interpret n p with _ | ⟨_ | _, _⟩ <;> rfl

end Session

/-- Two ways in which a run can end: both with success, or with errors that differ in their lines at
most. -/
inductive RunError.SameKind : Except RunError Unit → Except RunError Unit → Prop
  | success : SameKind (.ok ()) (.ok ())
  | parse (cause : ParseCause) (line line' : Nat) :
      SameKind (.error (.parse ⟨cause, line⟩)) (.error (.parse ⟨cause, line'⟩))
  | fault (cause : Cause) (line line' : Nat) :
      SameKind (.error (.fault ⟨cause, line⟩)) (.error (.fault ⟨cause, line'⟩))

/-- Two runs that have both not ended, or have ended alike: with success or errors of the same kind,
the same console and the same global variables up to the line numbers in functions. -/
inductive Session.RunsAlike :
    Option (Except RunError Unit × Session) → Option (Except RunError Unit × Session) → Prop
  | spent : RunsAlike none none
  | ended {r r' : Except RunError Unit} {s s' : Session} (result : RunError.SameKind r r')
      (console : s.console = s'.console)
      (globals : s.env.globals.renumber (fun _ => 0) = s'.env.globals.renumber fun _ => 0) :
      RunsAlike (some (r, s)) (some (r', s'))

/-- Without their lines, tokens are a kind and a text. -/
theorem Token.map_renumber_zero {ts us : List Token}
    (h : ts.map (fun t => (t.kind, t.lexeme)) = us.map fun t => (t.kind, t.lexeme)) :
    ts.map (Token.renumber fun _ => 0) = us.map (Token.renumber fun _ => 0) := by
  have hmap : ∀ vs : List Token, vs.map (Token.renumber fun _ => 0) =
      (vs.map fun t => (t.kind, t.lexeme)).map fun k => ⟨k.1, k.2, 0⟩ := by
    intro vs
    rw [List.map_map]
    rfl
  rw [hmap, hmap, h]

/-- Outcomes that are equal without lines are alike. -/
theorem Session.runsAlike_of_eq {x y : Option (Except Fault Unit × Session)}
    (h : (x.map fun out =>
        (out.1.mapError (Fault.renumber fun _ => 0), out.2.renumber fun _ => 0)) =
      y.map fun out => (out.1.mapError (Fault.renumber fun _ => 0), out.2.renumber fun _ => 0)) :
    RunsAlike (x.map fun out => (out.1.mapError .fault, out.2))
      (y.map fun out => (out.1.mapError .fault, out.2)) := by
  rcases x with _ | ⟨r, s⟩ <;> rcases y with _ | ⟨r', s'⟩
  · exact .spent
  · cases h
  · cases h
  · obtain ⟨hr, hs⟩ := Prod.mk.inj (Option.some.inj h)
    have hconsole := congrArg Session.console hs
    have hglobals := congrArg (fun session => session.env.globals) hs
    refine .ended ?_ hconsole hglobals
    rcases r with ⟨cause, line⟩ | _ <;> rcases r' with ⟨cause', line'⟩ | _
    · obtain rfl : cause = cause' := congrArg Fault.cause (Except.error.inj hr)
      exact .fault cause line line'
    · cases hr
    · cases hr
    · exact .success

/-- **Layout does not matter.** Take two sources without errors of scanning that have the same
tokens, up to their lines, and run them in new sessions on the same console. With every number of
steps, both have not ended, or both have ended with success or with errors that differ in their
lines at most, and then they leave the same console and the same global variables, up to the line
numbers in functions. -/
theorem layout_irrelevant (a b : String) (console : Console)
    (ha : (Scan.ofSource a).errors = []) (hb : (Scan.ofSource b).errors = [])
    (hab : (Scan.ofSource a).tokens.map (fun t => (t.kind, t.lexeme)) =
      (Scan.ofSource b).tokens.map fun t => (t.kind, t.lexeme)) (n : Nat) :
    Session.RunsAlike ((Session.start console).run n a) ((Session.start console).run n b) := by
  have hne : ∀ source, (Scan.ofSource source).tokens ≠ [] := fun _ => by
    simp [Scan.ofSource, Scan.ofChars]
  have hparse := Grammar.parse_renumber (f := fun _ => 0) (hne a)
  rw [Token.map_renumber_zero hab, Grammar.parse_renumber (hne b)] at hparse
  rw [Session.run_of_errors ha, Session.run_of_errors hb]
  cases hpa : Grammar.parse (Scan.ofSource a).tokens <;>
    cases hpb : Grammar.parse (Scan.ofSource b).tokens <;>
    rw [hpa, hpb] at hparse
  case error.error e e' =>
    obtain ⟨cause, line⟩ := e
    obtain ⟨cause', line'⟩ := e'
    obtain rfl : cause' = cause := congrArg ParseError.cause (Except.error.inj hparse)
    exact .ended (.parse cause' line line') rfl rfl
  case error.ok => cases hparse
  case ok.error => cases hparse
  case ok.ok p p' =>
    -- Without lines, both are the same program in the same session.
    have hstart : (Session.start console).env.Declared [] := Session.declared_initialEnv
    have hrun := Session.interpret_renumber (f := fun _ => 0) rfl hpa hstart n
    have hrun' := Session.interpret_renumber (f := fun _ => 0) rfl hpb hstart n
    have hprogram : p'.map (Stmt.renumber fun _ => 0) = p.map (Stmt.renumber fun _ => 0) :=
      Except.ok.inj hparse
    rw [hprogram, hrun] at hrun'
    exact Session.runsAlike_of_eq hrun'

/-- A program that compares a function with itself, on one row. -/
def onOneRow : String :=
  "BUHAT f() PUNDOK \x7b \x7d SUGOD IPAKITA: f == f KATAPUSAN"

/-- The same program on several rows, with a comment. -/
def onSeveralRows : String :=
  "BUHAT f() PUNDOK\n\x7b # \n\x7d\n\nSUGOD IPAKITA: f ==\nf KATAPUSAN"

/-- The tokens of both, without their lines. -/
def comparing : List (Kind × String) :=
  [(.mark .buhat, "BUHAT"), (.identifier "f", "f"), (.mark .leftParen, "("),
    (.mark .rightParen, ")"), (.mark .pundok, "PUNDOK"), (.mark .leftBrace, "\x7b"),
    (.mark .rightBrace, "\x7d"), (.mark .sugod, "SUGOD"), (.mark .ipakita, "IPAKITA"),
    (.mark .colon, ":"), (.identifier "f", "f"), (.mark .equalEqual, "=="), (.identifier "f", "f"),
    (.mark .katapusan, "KATAPUSAN"), (.eof, "")]

theorem layout_irrelevant_rows :
    (Scan.ofSource onOneRow).errors = [] ∧ (Scan.ofSource onSeveralRows).errors = [] ∧
    (Scan.ofSource onOneRow).tokens.map (fun t => (t.kind, t.lexeme)) = comparing ∧
    (Scan.ofSource onSeveralRows).tokens.map (fun t => (t.kind, t.lexeme)) = comparing ∧
    (Scan.ofSource onOneRow).tokens.map Token.line ≠
      (Scan.ofSource onSeveralRows).tokens.map Token.line ∧
    ((Session.start {}).run 20 onOneRow).map Prod.fst = some (.ok ()) ∧
    Session.RunsAlike ((Session.start {}).run 20 onOneRow)
      ((Session.start {}).run 20 onSeveralRows) := by
  have hone : (Scan.ofSource onOneRow).errors = [] := rfl
  have hseveral : (Scan.ofSource onSeveralRows).errors = [] := rfl
  have htokens : (Scan.ofSource onOneRow).tokens.map (fun t => (t.kind, t.lexeme)) =
    comparing := rfl
  have htokens' : (Scan.ofSource onSeveralRows).tokens.map (fun t => (t.kind, t.lexeme)) =
    comparing := rfl
  exact ⟨hone, hseveral, htokens, htokens', by decide +kernel, by decide +kernel,
    layout_irrelevant _ _ {} hone hseveral (htokens.trans htokens'.symm) 20⟩

end Sugod
