import Sugod.Proofs.Accepted

/-!
# Regular trees

The types of trees admit more than the parser builds: functions as literals or inside of blocks,
input statements without names, returns outside of functions. `Expr.Regular` and `Stmt.Regular` say,
without the grammar, what running a parsed tree relies on; `Grammar.accepted_regular` says that the
trees of the parser are of this kind.

The set of functions that may occur in a tree is given. A parsed tree is regular for every such set,
the empty one included, as its functions stand at the top of the program only.
-/

set_option autoImplicit false

namespace Sugod

variable {known : FunDecl → Prop} {inFn : Bool}

/-- A value that is no function, or one of the known functions. -/
def Value.Known (known : FunDecl → Prop) (v : Value) : Prop :=
  ∀ decl, v = .fn decl → known decl

/-- All functions that are literals in the expression are known. -/
inductive Expr.Regular (known : FunDecl → Prop) : Expr → Prop
  | literal {v line} (hv : v.Known known) : Regular known (.literal v line)
  | var (name) : Regular known (.var name)
  | assign {name value} (hvalue : Regular known value) : Regular known (.assign name value)
  | unary {op operand} (hoperand : Regular known operand) : Regular known (.unary op operand)
  | binary {left op right} (hleft : Regular known left) (hright : Regular known right) :
      Regular known (.binary left op right)
  | logical {left op right} (hleft : Regular known left) (hright : Regular known right) :
      Regular known (.logical left op right)
  | grouping {inner} (hinner : Regular known inner) : Regular known (.grouping inner)
  | call {callee paren args} (hcallee : Regular known callee)
      (hargs : ∀ e ∈ args, Regular known e) : Regular known (.call callee paren args)

/-- All functions in the statement are known, input statements have names, and returns stand inside
of functions only. -/
inductive Stmt.Regular (known : FunDecl → Prop) (inFn : Bool) : Stmt → Prop
  | display {e} (he : e.Regular known) : Regular known inFn (.display e)
  | expr {e} (he : e.Regular known) : Regular known inFn (.expr e)
  | accept {names} (hnames : names ≠ []) : Regular known inFn (.accept names)
  | declare {name ty init mutable} (hinit : ∀ e ∈ init, Expr.Regular known e) :
      Regular known inFn (.declare name ty init mutable)
  | block {body} (hbody : ∀ s ∈ body, Regular known inFn s) : Regular known inFn (.block body)
  | choose {first others otherwise}
      (hconds : ∀ b ∈ first :: others, b.cond.Regular known)
      (hbodies : ∀ b ∈ first :: others, ∀ s ∈ b.body, Regular known inFn s)
      (hotherwise : ∀ body ∈ otherwise, ∀ s ∈ body, Regular known inFn s) :
      Regular known inFn (.choose first others otherwise)
  | whileLoop {cond body} (hcond : cond.Regular known) (hbody : ∀ s ∈ body, Regular known inFn s) :
      Regular known inFn (.whileLoop cond body)
  | forLoop {init cond increment body} (hinit : Regular known inFn init)
      (hcond : cond.Regular known) (hincrement : increment.Regular known)
      (hbody : ∀ s ∈ body, Regular known inFn s) :
      Regular known inFn (.forLoop init cond increment body)
  | ret {keyword value} (inside : inFn = true) (hvalue : ∀ e ∈ value, Expr.Regular known e) :
      Regular known inFn (.ret keyword value)
  | fn {decl} (hdecl : known decl) : Regular known inFn (.fn decl)

/-- A branch whose condition and statements are regular. -/
structure Branch.Regular (known : FunDecl → Prop) (inFn : Bool) (b : Branch) : Prop where
  cond : b.cond.Regular known
  body : ∀ s ∈ b.body, s.Regular known inFn

/-- A function whose body is regular and ends with a return if the function has a return type. -/
structure FunDecl.Regular (known : FunDecl → Prop) (decl : FunDecl) : Prop where
  body : ∀ s ∈ decl.body, s.Regular known true
  ends : decl.returnTy ≠ none → ∃ s, decl.body.getLast? = some s ∧ s.isRet = true

namespace Grammar

/-! ## What the grammar derives is regular -/

theorem Literal.value_known {kind : Kind} {v : Value} (h : Literal kind v) : v.Known known := by
  intro decl hv
  cases h <;> cases hv

/-- An expression, or all arguments, are regular. -/
def ExprPhrase.Regular (known : FunDecl → Prop) : ExprPhrase → Prop
  | .expr _ e => e.Regular known
  | .arguments es => ∀ e ∈ es, e.Regular known

theorem Operators.regular {l : Level} {marks : List Mark} {next : Rank}
    {node : Expr → Token → Expr → Expr} (row : Operators l marks next node) {left right : Expr}
    {op : Token} (hleft : left.Regular known) (hright : right.Regular known) :
    (node left op right).Regular known := by
  cases row
  case or => exact .logical hleft hright
  case and => exact .logical hleft hright
  all_goals exact .binary hleft hright

theorem ExprPhrase.Derives.regular {phrase : ExprPhrase} {ts rest : List Token}
    (h : phrase.Derives ts rest) : phrase.Regular known := by
  induction h with
  | assign _ _ _ ih => exact .assign ih
  | unassigned _ ih => exact ih
  | operator row _ _ _ ihleft ihright => exact row.regular ihleft ihright
  | operand _ _ ih => exact ih
  | signed _ _ ih => exact .unary ih
  | unsigned _ ih => exact ih
  | call _ _ _ _ _ ihcallee ihargs => exact .call ihcallee ihargs
  | callEmpty _ _ _ ihcallee => exact .call ihcallee (List.forall_mem_nil _)
  | uncalled _ ih => exact ih
  | lastArgument _ ih => exact List.forall_mem_singleton.mpr ih
  | argument _ _ _ ih ihmore => exact List.forall_mem_cons.mpr ⟨ih, ihmore⟩
  | literal hliteral => exact .literal hliteral.value_known
  | var _ => exact .var _
  | grouping _ _ _ ih => exact .grouping ih

theorem expression_regular {e : Expr} {ts rest : List Token} (h : Expression e ts rest) :
    e.Regular known :=
  ExprPhrase.Derives.regular h

theorem alternative_regular {e : Expr} {ts rest : List Token} (h : Alternative e ts rest) :
    e.Regular known :=
  ExprPhrase.Derives.regular h

theorem Declarator.regular {ty : Ty} {mutable : Bool} {d : Stmt} {ts rest : List Token}
    (h : Declarator ty mutable d ts rest) : d.Regular known inFn := by
  cases h with
  | bare _ => exact .declare fun _ he => nomatch he
  | init _ _ he =>
    refine .declare fun x hx => ?_
    obtain rfl := Option.some.inj hx
    exact expression_regular he

theorem Declarators.regular {ty : Ty} {mutable : Bool} {ds : List Stmt} {ts rest : List Token}
    (h : Declarators ty mutable ds ts rest) : ∀ d ∈ ds, d.Regular known inFn := by
  induction h with
  | last hd => exact List.forall_mem_singleton.mpr hd.regular
  | more hd _ _ ih => exact List.forall_mem_cons.mpr ⟨hd.regular, ih⟩

theorem Declarations.regular {ds : List Stmt} {ts rest : List Token}
    (h : Declarations ds ts rest) : ∀ d ∈ ds, d.Regular known inFn := by
  induction h with
  | none => exact List.forall_mem_nil _
  | more _ _ hds _ ih => exact List.forall_mem_append.mpr ⟨hds.regular, ih⟩

theorem Names.ne_nil {names ts rest : List Token} (h : Names names ts rest) : names ≠ [] := by
  cases h <;> exact List.cons_ne_nil _ _

theorem LoopInit.regular {init : Stmt} {ts rest : List Token} (h : LoopInit init ts rest) :
    init.Regular known inFn := by
  cases h with
  | declare _ _ hd => exact hd.regular
  | assign _ _ he => exact .expr (.assign (expression_regular he))

theorem Increment.regular {step : Expr} {ts rest : List Token} (h : Increment step ts rest) :
    step.Regular known := by
  have one : ∀ line, (Expr.literal (.int 1) line).Regular known :=
    fun _ => .literal fun _ hv => nomatch hv
  cases h <;> exact .assign (.binary (.var _) (one _))

/-- All that a phrase derives is regular. -/
def Phrase.Regular (known : FunDecl → Prop) (inFn : Bool) : Phrase → Prop
  | .items ss => ∀ s ∈ ss, s.Regular known inFn
  | .statements ss => ∀ s ∈ ss, s.Regular known inFn
  | .statement s => s.Regular known inFn
  | .branch b => b.Regular known inFn
  | .elseIfs bs => ∀ b ∈ bs, b.Regular known inFn
  | .block body => ∀ s ∈ body, s.Regular known inFn

/-- **Derived statements are regular.** -/
theorem Phrase.Derives.regular {phrase : Phrase} {ts rest : List Token}
    (h : phrase.Derives inFn ts rest) : phrase.Regular known inFn := by
  induction h with
  | items hds _ _ ih => exact List.forall_mem_append.mpr ⟨hds.regular, ih⟩
  | noStatement => exact List.forall_mem_nil _
  | statement _ _ ih ihmore => exact List.forall_mem_cons.mpr ⟨ih, ihmore⟩
  | display _ _ he => exact .display (alternative_regular he)
  | accept _ _ hnames => exact .accept hnames.ne_nil
  | choose _ _ _ ihfirst ihothers =>
    have hall : ∀ b ∈ _ :: _, Branch.Regular known inFn b :=
      List.forall_mem_cons.mpr ⟨ihfirst, ihothers⟩
    exact .choose (fun b hb => (hall b hb).cond) (fun b hb => (hall b hb).body)
      fun _ hbody => nomatch hbody
  | chooseElse _ _ _ _ _ _ ihfirst ihothers ihbody =>
    have hall : ∀ b ∈ _ :: _, Branch.Regular known inFn b :=
      List.forall_mem_cons.mpr ⟨ihfirst, ihothers⟩
    refine .choose (fun b hb => (hall b hb).cond) (fun b hb => (hall b hb).body)
      fun body hbody => ?_
    obtain rfl := Option.some.inj hbody
    exact ihbody
  | whileLoop _ _ he _ _ ihbody => exact .whileLoop (expression_regular he) ihbody
  | forLoop _ _ hinit _ he _ hstep _ _ ihbody =>
    exact .forLoop hinit.regular (expression_regular he) hstep.regular ihbody
  | blockStatement _ ih => exact .block ih
  | bareRet inside _ => exact .ret inside fun _ he => nomatch he
  | ret inside _ he =>
    refine .ret inside fun x hx => ?_
    obtain rfl := Option.some.inj hx
    exact expression_regular he
  | expr he => exact .expr (expression_regular he)
  | branch _ he _ _ ihbody => exact ⟨alternative_regular he, ihbody⟩
  | noElseIf => exact List.forall_mem_nil _
  | elseIf _ _ _ ihb ihmore => exact List.forall_mem_cons.mpr ⟨ihb, ihmore⟩
  | block _ _ _ _ ih => exact ih

/-! ## Accepted programs -/

theorem Function.regular {decl : FunDecl} {ts rest : List Token} (h : Function decl ts rest) :
    decl.Regular known := by
  cases h with
  | mk _ _ _ _ hbody _ retThere => exact ⟨hbody.regular, retThere⟩

theorem Functions.regular {fs : List Stmt} {ts rest : List Token} (h : Functions fs ts rest) :
    ∃ decls : List FunDecl, fs = decls.map .fn ∧
      ∀ known, ∀ decl ∈ decls, decl.Regular known := by
  induction h with
  | none => exact ⟨[], rfl, fun _ => List.forall_mem_nil _⟩
  | @more decl _ _ _ _ hdecl _ ih =>
    obtain ⟨decls, rfl, hdecls⟩ := ih
    exact ⟨decl :: decls, rfl, fun known =>
      List.forall_mem_cons.mpr ⟨hdecl.regular, hdecls known⟩⟩

/-- **An accepted program consists of regular functions and regular statements.** -/
theorem accepted_regular {tokens : List Token} {p : Program} (h : parse tokens = .ok p) :
    ∃ (decls : List FunDecl) (ss : List Stmt), p = decls.map .fn ++ ss ∧ ∀ known,
      (∀ decl ∈ decls, decl.Regular known) ∧ ∀ s ∈ ss, s.Regular known false := by
  obtain ⟨rest, hprogram⟩ := parse_eq_ok_iff.mp h
  cases program_accepts hprogram with
  | mk hfs _ hss _ =>
    obtain ⟨decls, rfl, hdecls⟩ := hfs.regular
    exact ⟨decls, _, rfl, fun known => ⟨hdecls known, hss.regular⟩⟩

end Grammar

end Sugod
