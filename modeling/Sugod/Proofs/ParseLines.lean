import Sugod.Proofs.Renumber
import Sugod.Grammar.Program

/-!
# Parsing with other line numbers

A parser never decides anything by the line of a token. So on tokens with other line numbers it
takes the same tokens, and gives the same tree or the same error with other line numbers
(`parse_renumber`).

`Follows` is this property of parsers. It passes through all ways of combining them, and then it is
shown for one parser after another along the recursion of the grammar.
-/

set_option autoImplicit false

namespace Sugod

/-- An error of parsing with another line number. -/
def ParseError.renumber (f : Nat → Nat) (e : ParseError) : ParseError :=
  { e with line := f e.line }

/-- The result of a parser with other line numbers, where `g` gives the value other ones. -/
def Parsed.renumber {α : Type} (f : Nat → Nat) (g : α → α) : Parsed α → Parsed α
  | ok a rest => ok (g a) (rest.map (Token.renumber f))
  | error e => error (e.renumber f)
  | spent => spent

namespace Parser

variable {α β : Type} {f : Nat → Nat} {g : α → α} {h : β → β}

/-- With other line numbers of the tokens, the second parser does what the first one does. -/
def Follows (f : Nat → Nat) (g : α → α) (p q : Parser α) : Prop :=
  ∀ endLine ts, q (f endLine) (ts.map (Token.renumber f)) = (p endLine ts).renumber f g

theorem follows_spent : Follows f g spent spent :=
  fun _ _ => rfl

theorem follows_pure {a b : α} (hab : b = g a) : Follows f g (pure a) (pure b) := by
  subst hab
  exact fun _ _ => rfl

theorem Follows.bind {p q : Parser α} {k l : α → Parser β} (hp : Follows f g p q)
    (hk : ∀ a, Follows f h (k a) (l (g a))) : Follows f h (p >>= k) (q >>= l) := by
  intro endLine ts
  rw [bind_apply, bind_apply, hp endLine ts]
  cases p endLine ts with
  | ok a rest => exact hk a endLine rest
  | error e => rfl
  | spent => rfl

theorem Follows.map {p q : Parser α} {k l : α → β} (hp : Follows f g p q)
    (hk : ∀ a, l (g a) = h (k a)) : Follows f h (k <$> p) (l <$> q) := by
  have hbind : Follows f h (p >>= fun a => pure (k a)) (q >>= fun a => pure (l a)) :=
    hp.bind fun a => follows_pure (hk a)
  exact hbind

theorem follows_failAt (line : Nat) (cause : ParseCause) :
    Follows f g (failAt line cause) (failAt (f line) cause) :=
  fun _ _ => rfl

theorem follows_fail (cause : String → ParseCause) : Follows f g (fail cause) (fail cause) := by
  intro endLine ts
  cases ts <;> rfl

theorem follows_peek : Follows f (Option.map (Token.renumber f)) peek peek := by
  intro endLine ts
  cases ts <;> rfl

theorem follows_peekKind : Follows f id peekKind peekKind := by
  intro endLine ts
  cases ts <;> rfl

theorem follows_skip : Follows f id skip skip := by
  intro endLine ts
  cases ts <;> rfl

theorem follows_nextIs (m : Mark) : Follows f id (nextIs m) (nextIs m) := by
  intro endLine ts
  cases ts <;> rfl

theorem follows_take? (marks : List Mark) :
    Follows f (Option.map (Token.renumber f)) (take? marks) (take? marks) := by
  intro endLine ts
  cases ts with
  | nil => rfl
  | cons t ts =>
    have hany : marks.any (t.renumber f).is = marks.any t.is := rfl
    simp only [List.map_cons, take?, hany]
    by_cases ht : marks.any t.is
    · rw [if_pos ht, if_pos ht]
      rfl
    · rw [if_neg ht, if_neg ht]
      rfl

theorem Follows.unlessNext {p q : Parser α} (hp : Follows f g p q) (m : Mark) {a b : α}
    (hab : b = g a) : Follows f g (unlessNext m a p) (unlessNext m b q) := by
  intro endLine ts
  have hnext : (ts.map (Token.renumber f)).head?.any (Token.is m) = ts.head?.any (Token.is m) := by
    cases ts <;> rfl
  unfold Parser.unlessNext
  rw [hnext]
  by_cases ht : ts.head?.any (Token.is m)
  · rw [if_pos ht, if_pos ht, hab]
    rfl
  · rw [if_neg ht, if_neg ht]
    exact hp endLine ts

theorem follows_expect (m : Mark) (place : Place) :
    Follows f (Token.renumber f) (expect m place) (expect m place) := by
  intro endLine ts
  cases ts with
  | nil => rfl
  | cons t ts =>
    have his : (t.renumber f).is m = t.is m := rfl
    simp only [List.map_cons, expect, his]
    by_cases ht : t.is m
    · rw [if_pos ht, if_pos ht]
      rfl
    · rw [if_neg ht, if_neg ht]
      rfl

theorem follows_identifier (place : Place) :
    Follows f (Token.renumber f) (identifier place) (identifier place) := by
  intro endLine ts
  cases ts with
  | nil => rfl
  | cons t ts =>
    obtain ⟨kind, lexeme, line⟩ := t
    cases kind <;> rfl

theorem follows_ty? : Follows f id ty? ty? := by
  intro endLine ts
  cases ts with
  | nil => rfl
  | cons t ts =>
    have hty : (t.renumber f).kind.ty? = t.kind.ty? := rfl
    simp only [List.map_cons, ty?, hty]
    cases t.kind.ty? <;> rfl

theorem follows_ty : Follows f id ty ty := by
  refine follows_ty?.bind fun found => ?_
  cases found with
  | none => exact follows_fail _
  | some _ => exact follows_pure rfl

end Parser

namespace Grammar

open Sugod.Parser

variable {f : Nat → Nat} {n : Nat}

/-! ## Expressions -/

theorem literal?_known {kind : Kind} {v : Value} (h : literal? kind = some v) :
    v.Known fun _ => False := by
  intro decl hv
  subst hv
  unfold literal? at h
  split at h <;> cases h

theorem atom?_renumber (t : Token) : atom? (t.renumber f) = (atom? t).map (Expr.renumber f) := by
  have hliteral : (literal? t.kind).map (fun v => Expr.literal v (f t.line)) =
      ((literal? t.kind).map fun v => Expr.literal v t.line).map (Expr.renumber f) := by
    cases hv : literal? t.kind with
    | none => rfl
    | some v =>
      have hself : v.renumber f = v := Value.renumber_eq_self f (literal?_known hv)
      simp only [Option.map_some, Expr.renumber, hself]
  obtain ⟨kind, lexeme, line⟩ := t
  cases kind with
  | identifier name => rfl
  | _ => exact hliteral

theorem follows_assignTo (equals : Token) (value e : Expr) :
    Follows f (Expr.renumber f) (assignTo equals value e)
      (assignTo (equals.renumber f) (value.renumber f) (e.renumber f)) := by
  cases e with
  | var name => exact follows_pure rfl
  | _ => exact follows_failAt equals.line .notAssignable

theorem Level.node_renumber (l : Level) (left right : Expr) (op : Token) :
    l.node (left.renumber f) (op.renumber f) (right.renumber f) =
      (l.node left op right).renumber f := by
  cases l <;> rfl

/-- With `n` steps, the parsers of expressions do the same with other line numbers. -/
structure FollowsExpr (f : Nat → Nat) (n : Nat) : Prop where
  assignment : Follows f (Expr.renumber f) (assignment n) (assignment n)
  level : ∀ l, Follows f (Expr.renumber f) (level n l) (level n l)
  operand : ∀ l, Follows f (Expr.renumber f) (operand n l) (operand n l)
  chain : ∀ l left, Follows f (Expr.renumber f) (chain n l left) (chain n l (left.renumber f))
  unary : Follows f (Expr.renumber f) (unary n) (unary n)
  calls : ∀ callee, Follows f (Expr.renumber f) (calls n callee) (calls n (callee.renumber f))
  arguments : ∀ count,
    Follows f (List.map (Expr.renumber f)) (arguments n count) (arguments n count)
  primary : Follows f (Expr.renumber f) (primary n) (primary n)

section ExprStep

variable (ih : FollowsExpr f n)

include ih

theorem assignment_follows :
    Follows f (Expr.renumber f) (assignment (n + 1)) (assignment (n + 1)) := by
  rw [assignment]
  refine (ih.level .or).bind fun e => ?_
  refine (follows_take? _).bind fun t => ?_
  cases t with
  | none => exact follows_pure rfl
  | some equals => exact ih.assignment.bind fun value => follows_assignTo equals value e

theorem operand_follows (l : Level) :
    Follows f (Expr.renumber f) (operand (n + 1) l) (operand (n + 1) l) := by
  rw [operand]
  cases l.tighter? with
  | none => exact ih.unary
  | some l' => exact ih.level l'

theorem chain_follows (l : Level) (left : Expr) :
    Follows f (Expr.renumber f) (chain (n + 1) l left) (chain (n + 1) l (left.renumber f)) := by
  rw [chain, chain]
  refine (follows_take? _).bind fun t => ?_
  cases t with
  | none => exact follows_pure rfl
  | some op =>
    refine (ih.operand l).bind fun right => ?_
    rw [Level.node_renumber]
    exact ih.chain l _

theorem unary_follows : Follows f (Expr.renumber f) (unary (n + 1)) (unary (n + 1)) := by
  rw [unary]
  refine (follows_take? _).bind fun t => ?_
  cases t with
  | none => exact ih.primary.bind fun e => ih.calls e
  | some op => exact ih.unary.bind fun e => follows_pure rfl

theorem calls_follows (callee : Expr) :
    Follows f (Expr.renumber f) (calls (n + 1) callee) (calls (n + 1) (callee.renumber f)) := by
  rw [calls, calls]
  refine (follows_take? _).bind fun t => ?_
  cases t with
  | none => exact follows_pure rfl
  | some _ =>
    refine ((ih.arguments 0).unlessNext .rightParen rfl).bind fun args => ?_
    refine (follows_expect _ _).bind fun paren => ?_
    have hcall : Expr.call (callee.renumber f) (paren.renumber f) (args.map (Expr.renumber f)) =
        (Expr.call callee paren args).renumber f := by simp [Expr.renumber]
    rw [hcall]
    exact ih.calls _

theorem arguments_follow (count : Nat) :
    Follows f (List.map (Expr.renumber f)) (arguments (n + 1) count) (arguments (n + 1) count) := by
  rw [arguments]
  by_cases hcount : maxArity ≤ count
  · rw [if_pos hcount]
    exact follows_fail _
  · rw [if_neg hcount]
    refine ih.assignment.bind fun e => ?_
    refine (follows_take? _).bind fun t => ?_
    cases t with
    | none => exact follows_pure rfl
    | some _ => exact (ih.arguments (count + 1)).bind fun es => follows_pure rfl

theorem primary_follows : Follows f (Expr.renumber f) (primary (n + 1)) (primary (n + 1)) := by
  rw [primary]
  refine follows_peek.bind fun t => ?_
  cases t with
  | none => exact follows_fail _
  | some t =>
    simp only [Option.map_some, atom?_renumber]
    cases atom? t with
    | some e => exact follows_skip.bind fun _ => follows_pure rfl
    | none =>
      have his : (t.renumber f).is .leftParen = t.is .leftParen := rfl
      simp only [Option.map_none, his]
      by_cases ht : t.is .leftParen
      · rw [if_pos ht]
        refine follows_skip.bind fun _ => ih.assignment.bind fun e => ?_
        exact (follows_expect _ _).bind fun _ => follows_pure rfl
      · rw [if_neg ht]
        exact follows_fail _

end ExprStep

theorem followsExpr (f : Nat → Nat) (n : Nat) : FollowsExpr f n := by
  induction n with
  | zero =>
    constructor <;> intros
    case assignment => rw [assignment]; exact follows_spent
    case level => rw [level]; exact follows_spent
    case operand => rw [operand]; exact follows_spent
    case chain => rw [chain, chain]; exact follows_spent
    case unary => rw [unary]; exact follows_spent
    case calls => rw [calls, calls]; exact follows_spent
    case arguments => rw [arguments]; exact follows_spent
    case primary => rw [primary]; exact follows_spent
  | succ n ih =>
    constructor
    case assignment => exact assignment_follows ih
    case level =>
      intro l
      rw [level]
      exact (ih.operand l).bind fun e => ih.chain l e
    case operand => exact operand_follows ih
    case chain => exact chain_follows ih
    case unary => exact unary_follows ih
    case calls => exact calls_follows ih
    case arguments => exact arguments_follow ih
    case primary => exact primary_follows ih

/-! ## Statements -/

theorem initializer_follows (n : Nat) :
    Follows f (Option.map (Expr.renumber f)) (initializer n) (initializer n) := by
  refine (follows_take? _).bind fun t => ?_
  cases t with
  | none => exact follows_pure rfl
  | some _ => exact (followsExpr f n).assignment.bind fun e => follows_pure rfl

theorem declarator_follows (n : Nat) (ty : Ty) (mutable : Bool) :
    Follows f (Stmt.renumber f) (declarator n ty mutable) (declarator n ty mutable) := by
  refine (follows_identifier _).bind fun name => ?_
  refine (initializer_follows n).bind fun init => follows_pure ?_
  simp [Stmt.renumber]

theorem declarators_follow (n : Nat) (ty : Ty) (mutable : Bool) :
    Follows f (List.map (Stmt.renumber f)) (declarators n ty mutable)
      (declarators n ty mutable) := by
  induction n with
  | zero => exact follows_spent
  | succ n ih =>
    refine (declarator_follows n ty mutable).bind fun d => ?_
    refine (follows_take? _).bind fun t => ?_
    cases t with
    | none => exact follows_pure rfl
    | some _ => exact ih.bind fun ds => follows_pure rfl

theorem declarations_follow (n : Nat) :
    Follows f (List.map (Stmt.renumber f)) (declarations n) (declarations n) := by
  induction n with
  | zero => exact follows_spent
  | succ n ih =>
    refine (follows_take? _).bind fun t => ?_
    cases t with
    | none => exact follows_pure rfl
    | some keyword =>
      refine follows_ty.bind fun ty => ?_
      refine (declarators_follow n ty (keyword.is .mugna)).bind fun ds => ?_
      exact ih.bind fun more => follows_pure List.map_append.symm

theorem acceptNames_follow (n : Nat) (place : Place) :
    Follows f (List.map (Token.renumber f)) (acceptNames n place) (acceptNames n place) := by
  induction n generalizing place with
  | zero => exact follows_spent
  | succ n ih =>
    refine (follows_identifier place).bind fun name => ?_
    refine (follows_take? _).bind fun t => ?_
    cases t with
    | none => exact follows_pure rfl
    | some _ => exact (ih _).bind fun names => follows_pure rfl

theorem condition_follows (n : Nat) :
    Follows f (Expr.renumber f) (condition n) (condition n) := by
  refine (follows_expect _ _).bind fun _ => ?_
  refine ((followsExpr f n).level .or).bind fun e => ?_
  exact (follows_expect _ _).bind fun _ => follows_pure rfl

theorem loopInit_follows (n : Nat) : Follows f (Stmt.renumber f) (loopInit n) (loopInit n) := by
  refine (follows_take? _).bind fun t => ?_
  cases t with
  | none =>
    refine (follows_identifier _).bind fun name => ?_
    refine (follows_expect _ _).bind fun _ => ?_
    exact (followsExpr f n).assignment.bind fun value => follows_pure rfl
  | some keyword => exact follows_ty.bind fun ty => declarator_follows n ty (keyword.is .mugna)

theorem incrementSign_follows (marks : List Mark) :
    Follows f (Token.renumber f) (incrementSign marks) (incrementSign marks) := by
  refine (follows_take? _).bind fun t => ?_
  cases t with
  | none => exact follows_fail _
  | some op => exact follows_pure rfl

theorem increment_follows : Follows f (Expr.renumber f) increment increment := by
  refine (follows_identifier _).bind fun name => ?_
  refine (incrementSign_follows _).bind fun op => ?_
  have his : (op.renumber f).is .plus = op.is .plus := rfl
  rw [his]
  by_cases hplus : op.is .plus
  · rw [if_pos hplus, if_pos hplus]
    exact (incrementSign_follows _).bind fun _ => follows_pure rfl
  · rw [if_neg hplus, if_neg hplus]
    exact (incrementSign_follows _).bind fun _ => follows_pure rfl

theorem returnValue_follows (n : Nat) :
    Follows f (Option.map (Expr.renumber f)) (returnValue n) (returnValue n) := by
  intro endLine ts
  cases ts with
  | nil => rfl
  | cons t ts =>
    have his : (t.renumber f).is .rightBrace = t.is .rightBrace := rfl
    have hkind : (t.renumber f).kind = t.kind := rfl
    simp only [List.map_cons, returnValue, his, hkind]
    by_cases ht : (t.is .rightBrace || t.kind.isEof) = true
    · rw [if_pos ht, if_pos ht]
      rfl
    · rw [if_neg ht, if_neg ht]
      have hsome := (followsExpr f n).assignment.map (k := some) (l := some)
        (h := Option.map (Expr.renumber f)) fun _ => rfl
      exact hsome endLine (t :: ts)

theorem endsWithRet_renumber (body : List Stmt) :
    endsWithRet (body.map (Stmt.renumber f)) = endsWithRet body := by
  unfold endsWithRet
  rw [List.getLast?_map]
  cases body.getLast? with
  | none => rfl
  | some s => exact s.isRet_renumber f

theorem atElseIf_follows : Follows f id atElseIf atElseIf := by
  intro endLine ts
  rcases ts with _ | ⟨t, _ | ⟨t', ts⟩⟩ <;> rfl

/-- With `n` steps, the parsers of statements do the same with other line numbers. -/
structure FollowsStmt (f : Nat → Nat) (n : Nat) : Prop where
  items : ∀ closer inFn own,
    Follows f (List.map (Stmt.renumber f)) (items n closer inFn own) (items n closer inFn own)
  statements : ∀ closer inFn own, Follows f (List.map (Stmt.renumber f))
    (statements n closer inFn own) (statements n closer inFn own)
  statement : ∀ inFn, Follows f (Stmt.renumber f) (statement n inFn) (statement n inFn)
  elseIfs : ∀ inFn, Follows f (List.map (Branch.renumber f)) (elseIfs n inFn) (elseIfs n inFn)
  elseBlock : ∀ inFn alone, Follows f (Option.map (List.map (Stmt.renumber f)))
    (elseBlock n inFn alone) (elseBlock n inFn alone)
  block : ∀ inFn own, Follows f (List.map (Stmt.renumber f)) (block n inFn own) (block n inFn own)
  braced : ∀ inFn own,
    Follows f (List.map (Stmt.renumber f)) (braced n inFn own) (braced n inFn own)

section StmtStep

variable (ih : FollowsStmt f n)

include ih

theorem items_follow (closer : Mark) (inFn own : Bool) :
    Follows f (List.map (Stmt.renumber f)) (items (n + 1) closer inFn own)
      (items (n + 1) closer inFn own) := by
  rw [items]
  refine (declarations_follow n).bind fun ds => ?_
  exact (ih.statements closer inFn own).bind fun ss => follows_pure List.map_append.symm

theorem statements_follow (closer : Mark) (inFn own : Bool) :
    Follows f (List.map (Stmt.renumber f)) (statements (n + 1) closer inFn own)
      (statements (n + 1) closer inFn own) := by
  rw [statements]
  refine follows_peek.bind fun t => ?_
  cases t with
  | none => exact follows_pure rfl
  | some t =>
    have his : ∀ m, (t.renumber f).is m = t.is m := fun _ => rfl
    have hkind : (t.renumber f).kind = t.kind := rfl
    simp only [Option.map_some, his, hkind]
    by_cases hclose : (t.is closer || t.kind.isEof) = true
    · rw [if_pos hclose]
      exact follows_pure rfl
    · rw [if_neg hclose]
      by_cases hdeclare : (t.is .mugna || t.is .pirmi) = true
      · rw [if_pos hdeclare]
        exact follows_fail _
      · rw [if_neg hdeclare]
        refine (ih.statement inFn).bind fun s => ?_
        rw [Stmt.isRet_renumber]
        by_cases hret : (own && s.isRet) = true
        · rw [if_pos hret, if_pos hret]
          exact follows_pure rfl
        · rw [if_neg hret, if_neg hret]
          exact (ih.statements closer inFn own).bind fun ss => follows_pure rfl

theorem elseIfs_follow (inFn : Bool) :
    Follows f (List.map (Branch.renumber f)) (elseIfs (n + 1) inFn) (elseIfs (n + 1) inFn) := by
  rw [elseIfs]
  refine atElseIf_follows.bind fun here => ?_
  cases here with
  | false => exact follows_pure rfl
  | true =>
    refine follows_skip.bind fun _ => ?_
    refine (condition_follows n).bind fun e => ?_
    refine (ih.block inFn false).bind fun body => ?_
    refine (ih.elseIfs inFn).bind fun more => follows_pure ?_
    simp [Branch.renumber]

theorem elseBlock_follows (inFn alone : Bool) :
    Follows f (Option.map (List.map (Stmt.renumber f))) (elseBlock (n + 1) inFn alone)
      (elseBlock (n + 1) inFn alone) := by
  rw [elseBlock]
  refine (follows_nextIs _).bind fun here => ?_
  cases here with
  | false => exact follows_pure rfl
  | true =>
    cases alone with
    | true => exact follows_fail fun _ => .elseWithoutElseIf
    | false =>
      refine follows_skip.bind fun _ => ?_
      exact (ih.block inFn false).bind fun body => follows_pure rfl

theorem braced_follows (inFn own : Bool) :
    Follows f (List.map (Stmt.renumber f)) (braced (n + 1) inFn own) (braced (n + 1) inFn own) := by
  rw [braced]
  refine (follows_expect _ _).bind fun _ => ?_
  refine (ih.items _ inFn own).bind fun body => ?_
  rw [endsWithRet_renumber]
  exact (follows_expect _ _).bind fun _ => follows_pure rfl

theorem choose_follows (inFn : Bool) :
    Follows f (Stmt.renumber f)
      (do
        let e ← condition n
        let body ← block n inFn false
        let others ← elseIfs n inFn
        let otherwise ← elseBlock n inFn others.isEmpty
        pure (.choose ⟨e, body⟩ others otherwise))
      (do
        let e ← condition n
        let body ← block n inFn false
        let others ← elseIfs n inFn
        let otherwise ← elseBlock n inFn others.isEmpty
        pure (.choose ⟨e, body⟩ others otherwise)) := by
  refine (condition_follows n).bind fun e => ?_
  refine (ih.block inFn false).bind fun body => ?_
  refine (ih.elseIfs inFn).bind fun others => ?_
  rw [List.isEmpty_map]
  refine (ih.elseBlock inFn others.isEmpty).bind fun otherwise => follows_pure ?_
  simp [Stmt.renumber, Branch.renumber]

theorem statement_follows (inFn : Bool) :
    Follows f (Stmt.renumber f) (statement (n + 1) inFn) (statement (n + 1) inFn) := by
  have expression : Follows f (Stmt.renumber f) (assignment n >>= fun e => pure (.expr e))
      (assignment n >>= fun e => pure (.expr e)) :=
    (followsExpr f n).assignment.bind fun e => follows_pure rfl
  rw [statement]
  refine follows_peek.bind fun t => ?_
  cases t with
  | none => exact expression
  | some t =>
    obtain ⟨kind, lexeme, line⟩ := t
    cases kind with
    | mark m =>
      cases m with
      | ipakita =>
        refine follows_skip.bind fun _ => (follows_expect _ _).bind fun _ => ?_
        exact ((followsExpr f n).level .or).bind fun e => follows_pure rfl
      | dawat =>
        refine follows_skip.bind fun _ => (follows_expect _ _).bind fun _ => ?_
        exact (acceptNames_follow n _).bind fun names => follows_pure rfl
      | kung => exact follows_skip.bind fun _ => choose_follows ih inFn
      | samtang =>
        refine follows_skip.bind fun _ => (follows_expect _ _).bind fun _ => ?_
        refine (followsExpr f n).assignment.bind fun e => (follows_expect _ _).bind fun _ => ?_
        refine (ih.block inFn false).bind fun body => follows_pure ?_
        simp [Stmt.renumber]
      | alangSa =>
        refine follows_skip.bind fun _ => (follows_expect _ _).bind fun _ => ?_
        refine (loopInit_follows n).bind fun init => (follows_expect _ _).bind fun _ => ?_
        refine (followsExpr f n).assignment.bind fun e => (follows_expect _ _).bind fun _ => ?_
        refine increment_follows.bind fun step => (follows_expect _ _).bind fun _ => ?_
        refine (ih.block inFn false).bind fun body => follows_pure ?_
        simp [Stmt.renumber]
      | iuli =>
        cases inFn with
        | false => exact follows_failAt line .returnOutsideFunction
        | true =>
          refine follows_skip.bind fun _ => ?_
          refine (returnValue_follows n).bind fun value => follows_pure ?_
          simp [Stmt.renumber]
      | pundok =>
        refine follows_skip.bind fun _ => ?_
        refine (ih.braced inFn false).bind fun body => follows_pure ?_
        simp [Stmt.renumber]
      | buhat => exact follows_fail _
      | _ => exact expression
    | _ => exact expression

end StmtStep

theorem followsStmt (f : Nat → Nat) (n : Nat) : FollowsStmt f n := by
  induction n with
  | zero =>
    constructor <;> intros
    case items => rw [items]; exact follows_spent
    case statements => rw [statements]; exact follows_spent
    case statement => rw [statement]; exact follows_spent
    case elseIfs => rw [elseIfs]; exact follows_spent
    case elseBlock => rw [elseBlock]; exact follows_spent
    case block => rw [block]; exact follows_spent
    case braced => rw [braced]; exact follows_spent
  | succ n ih =>
    constructor
    case items => exact items_follow ih
    case statements => exact statements_follow ih
    case statement => exact statement_follows ih
    case elseIfs => exact elseIfs_follow ih
    case elseBlock => exact elseBlock_follows ih
    case block =>
      intro inFn own
      rw [block]
      exact (follows_expect _ _).bind fun _ => ih.braced inFn own
    case braced => exact braced_follows ih

/-! ## Programs -/

theorem params_follow (n count : Nat) :
    Follows f (List.map (Param.renumber f)) (params n count) (params n count) := by
  induction n generalizing count with
  | zero => exact follows_spent
  | succ n ih =>
    rw [params]
    by_cases hcount : maxArity ≤ count
    · rw [if_pos hcount]
      exact follows_fail _
    · rw [if_neg hcount]
      refine follows_ty.bind fun ty => (follows_identifier _).bind fun name => ?_
      refine (follows_take? _).bind fun t => ?_
      cases t with
      | none => exact follows_pure rfl
      | some _ => exact (ih (count + 1)).bind fun ps => follows_pure rfl

theorem declared_follows (name : Token) (ps : List Param) (body : List Stmt)
    (returnTy : Option Ty) :
    Follows f (FunDecl.renumber f) (declared name ps body returnTy)
      (declared (name.renumber f) (ps.map (Param.renumber f)) (body.map (Stmt.renumber f))
        returnTy) := by
  have hdecl : ∀ ty, FunDecl.mk (name.renumber f) (ps.map (Param.renumber f))
      (body.map (Stmt.renumber f)) ty = FunDecl.renumber f ⟨name, ps, body, ty⟩ := by
    intro ty
    rw [FunDecl.renumber, stmtsRenumber_eq_map]
  cases returnTy with
  | none => exact follows_pure (hdecl none)
  | some ty =>
    simp only [declared, endsWithRet_renumber]
    by_cases hret : endsWithRet body
    · rw [if_pos hret, if_pos hret]
      exact follows_pure (hdecl (some ty))
    · rw [if_neg hret, if_neg hret]
      exact follows_failAt name.line _

theorem function_follows (n : Nat) :
    Follows f (FunDecl.renumber f) (function n) (function n) := by
  refine follows_ty?.bind fun returnTy => (follows_identifier _).bind fun name => ?_
  refine (follows_expect _ _).bind fun _ => ?_
  refine ((params_follow n 0).unlessNext .rightParen rfl).bind fun ps => ?_
  refine (follows_expect _ _).bind fun _ => ?_
  exact ((followsStmt f n).block true true).bind fun body => declared_follows name ps body returnTy

theorem functions_follow (n : Nat) :
    Follows f (List.map (Stmt.renumber f)) (functions n) (functions n) := by
  induction n with
  | zero => exact follows_spent
  | succ n ih =>
    refine (follows_take? _).bind fun t => ?_
    cases t with
    | none => exact follows_pure rfl
    | some _ => exact (function_follows n).bind fun decl => ih.bind fun fs => follows_pure rfl

theorem finish_follows : Follows f id finish finish := by
  refine follows_peekKind.bind fun kind => ?_
  unfold id
  split
  · exact follows_pure rfl
  · exact follows_pure rfl
  · exact follows_fail _
  · exact follows_fail _
  · exact follows_fail _

theorem program_follows (n : Nat) :
    Follows f (List.map (Stmt.renumber f)) (program n) (program n) := by
  refine (functions_follow n).bind fun fs => (follows_expect _ _).bind fun _ => ?_
  refine ((followsStmt f n).items _ false false).bind fun ss => ?_
  refine (follows_expect _ _).bind fun _ => finish_follows.bind fun _ => ?_
  exact follows_pure List.map_append.symm

theorem lastLine_renumber {tokens : List Token} (h : tokens ≠ []) :
    lastLine (tokens.map (Token.renumber f)) = f (lastLine tokens) := by
  unfold lastLine
  rw [List.getLast?_map, List.getLast?_eq_some_getLast h]
  rfl

/-- **Parsing does not depend on lines.** From tokens with other line numbers comes the same tree,
or the same error, with other line numbers. -/
theorem parse_renumber {tokens : List Token} (h : tokens ≠ []) :
    parse (tokens.map (Token.renumber f)) =
      match parse tokens with
      | .ok p => .ok (p.map (Stmt.renumber f))
      | .error e => .error (e.renumber f) := by
  -- The number of steps depends on the number of tokens only.
  have hsteps : steps (tokens.map (Token.renumber f)) = steps tokens := by
    unfold steps
    rw [List.length_map]
  unfold parse
  rw [lastLine_renumber h, hsteps, program_follows]
  cases program (steps tokens) (lastLine tokens) tokens <;> rfl

end Grammar

end Sugod
