import Sugod.Grammar.Program

/-!
# Enough steps

The parsers of the grammar hand on a number of steps, and a program is parsed with 24 of them for
every token. This module shows that they are always enough: `program_ne_spent`.

`Within d p e ts` says that the parser `p` does not run out of steps on the tokens `ts`, and that
it has taken at least `d` tokens when it succeeds. For each parser there is a rank, the number of
parsers that can be entered from it before a token is taken. All ranks are below 24, so taking one
token pays for all that can be entered before the next one is taken.
-/

set_option autoImplicit false

namespace Sugod

namespace Parser

variable {α β : Type}

/-- Does not run out of steps, and takes at least `d` tokens when it succeeds. -/
def Within (d : Nat) (p : Parser α) (e : Nat) (ts : List Token) : Prop :=
  p e ts ≠ .spent ∧ ∀ a rest, p e ts = .ok a rest → rest.length + d ≤ ts.length

theorem Within.mono {d k : Nat} {p : Parser α} {e : Nat} {ts : List Token}
    (h : Within d p e ts) (hk : k ≤ d) : Within k p e ts := by
  refine ⟨h.1, fun a rest hr => ?_⟩
  have := h.2 a rest hr
  omega

theorem within_pure (a : α) (e : Nat) (ts : List Token) : Within 0 (pure a : Parser α) e ts := by
  refine ⟨by simp, fun b rest hr => ?_⟩
  simp only [pure_apply, Parsed.ok.injEq] at hr
  simp [hr.2]

/-- One parser after another takes what both of them take. -/
theorem Within.bind {d k : Nat} {p : Parser α} {f : α → Parser β} {e : Nat} {ts : List Token}
    (hp : Within d p e ts)
    (hf : ∀ a rest, rest.length + d ≤ ts.length → Within k (f a) e rest) :
    Within (d + k) (p >>= f) e ts := by
  unfold Within
  rw [bind_apply]
  cases hr : p e ts with
  | ok a rest =>
    have len := hp.2 a rest hr
    have next := hf a rest len
    refine ⟨next.1, fun b rest' hb => ?_⟩
    have := next.2 b rest' hb
    omega
  | error err => exact ⟨by simp, fun b rest' hb => by simp at hb⟩
  | spent => exact absurd hr hp.1

theorem within_error {p : Parser α} {e : Nat} {ts : List Token} {err : ParseError}
    (h : p e ts = .error err) (d : Nat) : Within d p e ts := by
  refine ⟨by simp [h], fun a rest hr => ?_⟩
  rw [h] at hr
  cases hr

theorem within_fail (cause : String → ParseCause) (d e : Nat) (ts : List Token) :
    Within d (fail cause : Parser α) e ts :=
  within_error rfl d

theorem within_failAt (line : Nat) (cause : ParseCause) (d e : Nat) (ts : List Token) :
    Within d (failAt line cause : Parser α) e ts :=
  within_error rfl d

theorem within_expect (m : Mark) (place : Place) (e : Nat) (ts : List Token) :
    Within 1 (expect m place) e ts := by
  cases ts with
  | nil => exact within_error rfl 1
  | cons t rest =>
    by_cases h : t.is m
    · refine ⟨by simp [expect, h], fun a rest' hr => ?_⟩
      simp only [expect, h, if_true, Parsed.ok.injEq] at hr
      simp [hr.2]
    · exact within_error (by simp [expect, h]; rfl) 1

theorem within_identifier (place : Place) (e : Nat) (ts : List Token) :
    Within 1 (identifier place) e ts := by
  cases ts with
  | nil => exact within_error rfl 1
  | cons t rest =>
    cases hk : t.kind with
    | identifier name =>
      refine ⟨by simp [identifier, hk], fun a rest' hr => ?_⟩
      simp only [identifier, hk, Parsed.ok.injEq] at hr
      simp [hr.2]
    | _ => exact within_error (by simp [identifier, hk]; rfl) 1

theorem within_ty? (e : Nat) (ts : List Token) : Within 0 ty? e ts := by
  cases ts with
  | nil =>
    refine ⟨by simp [ty?], fun a rest hr => ?_⟩
    simp only [ty?, Parsed.ok.injEq] at hr
    simp [← hr.2]
  | cons t rest =>
    cases hk : t.kind.ty? with
    | some ty =>
      refine ⟨by simp [ty?, hk], fun a rest' hr => ?_⟩
      simp only [ty?, hk, Parsed.ok.injEq] at hr
      simp [← hr.2]
    | none =>
      refine ⟨by simp [ty?, hk], fun a rest' hr => ?_⟩
      simp only [ty?, hk, Parsed.ok.injEq] at hr
      simp [← hr.2]

theorem within_ty (e : Nat) (ts : List Token) : Within 1 ty e ts := by
  unfold Within ty
  rw [bind_apply]
  cases ts with
  | nil => exact ⟨by simp [ty?, fail], fun a rest hr => by simp [ty?, fail] at hr⟩
  | cons t rest =>
    cases hk : t.kind.ty? with
    | some ty =>
      refine ⟨by simp [ty?, hk], fun a rest' hr => ?_⟩
      simp only [ty?, hk, pure_apply, Parsed.ok.injEq] at hr
      simp [hr.2]
    | none => exact ⟨by simp [ty?, hk, fail], fun a rest' hr => by simp [ty?, hk, fail] at hr⟩

/-- A choice on whether the next token is one of some marks. -/
theorem within_take? {d : Nat} {marks : List Mark} {f : Option Token → Parser α} {e : Nat}
    {ts : List Token} (hnone : Within d (f none) e ts)
    (hsome : ∀ t rest, ts = t :: rest → marks.any t.is → Within (d - 1) (f (some t)) e rest) :
    Within d (take? marks >>= f) e ts := by
  unfold Within
  rw [bind_apply]
  cases ts with
  | nil => exact hnone
  | cons t rest =>
    by_cases h : marks.any t.is
    · have next := hsome t rest rfl h
      simp only [take?, h, if_true]
      refine ⟨next.1, fun a rest' hr => ?_⟩
      have := next.2 a rest' hr
      simp only [List.length_cons]
      omega
    · simp only [take?, h]
      exact hnone

/-- A choice on the next token, which is not taken. -/
theorem within_peek {d : Nat} {f : Option Token → Parser α} {e : Nat} {ts : List Token}
    (hnone : ts = [] → Within d (f none) e [])
    (hsome : ∀ t rest, ts = t :: rest → Within d (f (some t)) e (t :: rest)) :
    Within d (peek >>= f) e ts := by
  cases ts with
  | nil => exact hnone rfl
  | cons t rest => exact hsome t rest rfl

/-- A choice on the kind of the next token, which is not taken. -/
theorem within_peekKind {d : Nat} {f : Option Kind → Parser α} {e : Nat} {ts : List Token}
    (h : Within d (f (ts.head?.map Token.kind)) e ts) : Within d (peekKind >>= f) e ts :=
  h

/-- Going on behind a token that is there. -/
theorem within_skip {d : Nat} {f : Unit → Parser α} {e : Nat} {t : Token} {rest : List Token}
    (h : Within d (f ()) e rest) : Within (d + 1) (skip >>= f) e (t :: rest) := by
  refine ⟨h.1, fun a rest' hr => ?_⟩
  have := h.2 a rest' hr
  simp only [List.length_cons]
  omega

theorem within_unlessNext {m : Mark} {a : α} {p : Parser α} {e : Nat} {ts : List Token}
    (h : Within 0 p e ts) : Within 0 (unlessNext m a p) e ts := by
  unfold Within unlessNext
  split
  · refine ⟨by simp, fun b rest hr => ?_⟩
    simp only [Parsed.ok.injEq] at hr
    simp [hr.2]
  · exact h

theorem within_nextIs {d : Nat} {m : Mark} {f : Bool → Parser α} {e : Nat} {ts : List Token}
    (h : Within d (f (ts.head?.any (Token.is m))) e ts) : Within d (nextIs m >>= f) e ts :=
  h

end Parser

namespace Grammar

open Sugod.Parser

/-- How many parsers can be entered from an operand of a level before a token is taken. -/
def rank : Level → Nat
  | .factor => 3
  | .term => 5
  | .comparison => 7
  | .equality => 9
  | .and => 11
  | .or => 13

theorem rank_tighter {l l' : Level} (h : l.tighter? = some l') : rank l' + 2 = rank l := by
  revert h
  cases l <;> cases l' <;> decide

theorem rank_bounds (l : Level) : 3 ≤ rank l ∧ rank l ≤ 13 := by
  cases l <;> decide

theorem rank_of_tightest {l : Level} (h : l.tighter? = none) : rank l = 3 := by
  revert h
  cases l <;> decide

/-- The parsers of expressions have enough steps, by the number of steps. -/
structure EnoughForExpr (n : Nat) : Prop where
  assignment : ∀ e ts, 24 * ts.length + 15 ≤ n → Within 1 (assignment n) e ts
  level : ∀ l e ts, 24 * ts.length + rank l + 1 ≤ n → Within 1 (level n l) e ts
  operand : ∀ l e ts, 24 * ts.length + rank l ≤ n → Within 1 (operand n l) e ts
  chain : ∀ l x e ts, 24 * ts.length + 1 ≤ n → Within 0 (chain n l x) e ts
  unary : ∀ e ts, 24 * ts.length + 2 ≤ n → Within 1 (unary n) e ts
  calls : ∀ x e ts, 24 * ts.length + 1 ≤ n → Within 0 (calls n x) e ts
  arguments : ∀ count e ts, 24 * ts.length + 16 ≤ n → Within 1 (arguments n count) e ts
  primary : ∀ e ts, 24 * ts.length + 1 ≤ n → Within 1 (primary n) e ts

theorem within_assignTo (equals : Token) (value x : Expr) (e : Nat) (ts : List Token) :
    Within 0 (assignTo equals value x) e ts := by
  unfold assignTo
  split
  · exact within_pure _ e ts
  · exact within_failAt _ _ 0 e ts

/-! ## One step of each parser of expressions

A parser with `n + 1` steps hands on `n` of them. What it enters before it takes a token has a
lower rank; behind a token there are 24 steps more than needed.
-/

namespace EnoughForExpr

variable {n e : Nat} {ts : List Token} (ih : EnoughForExpr n)

include ih

theorem assignmentStep (h : 24 * ts.length + 15 ≤ n + 1) :
    Within 1 (Grammar.assignment (n + 1)) e ts := by
  have hor : rank .or = 13 := rfl
  rw [Grammar.assignment]
  refine Within.bind (k := 0) (ih.level .or e ts (by omega)) fun x rest len => ?_
  refine within_take? (within_pure x e rest) fun t rest' hr _ => ?_
  subst hr
  simp only [List.length_cons] at len
  have value : Within 1 (Grammar.assignment n) e rest' := ih.assignment e rest' (by omega)
  exact (value.bind (k := 0) fun v rest'' _ => within_assignTo t v x e rest'').mono (by omega)

theorem levelStep (l : Level) (h : 24 * ts.length + rank l + 1 ≤ n + 1) :
    Within 1 (Grammar.level (n + 1) l) e ts := by
  have := rank_bounds l
  rw [Grammar.level]
  exact Within.bind (k := 0) (ih.operand l e ts (by omega)) fun x rest len =>
    ih.chain l x e rest (by omega)

theorem operandStep (l : Level) (h : 24 * ts.length + rank l ≤ n + 1) :
    Within 1 (Grammar.operand (n + 1) l) e ts := by
  rw [Grammar.operand]
  cases hl : l.tighter? with
  | some l' =>
    have := rank_tighter hl
    exact ih.level l' e ts (by omega)
  | none =>
    have := rank_of_tightest hl
    exact ih.unary e ts (by omega)

theorem chainStep (l : Level) (x : Expr) (h : 24 * ts.length + 1 ≤ n + 1) :
    Within 0 (Grammar.chain (n + 1) l x) e ts := by
  rw [Grammar.chain]
  refine within_take? (within_pure x e ts) fun t rest hr _ => ?_
  subst hr
  simp only [List.length_cons] at h
  have := rank_bounds l
  exact (Within.bind (k := 0) (ih.operand l e rest (by omega)) fun r rest' len =>
    ih.chain l _ e rest' (by omega)).mono (by omega)

theorem unaryStep (h : 24 * ts.length + 2 ≤ n + 1) : Within 1 (Grammar.unary (n + 1)) e ts := by
  rw [Grammar.unary]
  refine within_take? ?_ fun t rest hr _ => ?_
  · exact Within.bind (k := 0) (ih.primary e ts (by omega)) fun x rest len =>
      ih.calls x e rest (by omega)
  · subst hr
    simp only [List.length_cons] at h
    exact (Within.bind (k := 0) (ih.unary e rest (by omega)) fun x rest' _ =>
      within_pure _ e rest').mono (by omega)

theorem callsStep (x : Expr) (h : 24 * ts.length + 1 ≤ n + 1) :
    Within 0 (Grammar.calls (n + 1) x) e ts := by
  rw [Grammar.calls]
  refine within_take? (within_pure x e ts) fun t rest hr _ => ?_
  subst hr
  simp only [List.length_cons] at h
  refine (Within.bind (d := 0) (k := 1)
    (within_unlessNext ((ih.arguments 0 e rest (by omega)).mono (by omega)))
    fun args rest' len => ?_).mono (by omega)
  exact Within.bind (k := 0) (within_expect _ _ e rest') fun paren rest'' len' =>
    ih.calls _ e rest'' (by omega)

theorem argumentsStep (count : Nat) (h : 24 * ts.length + 16 ≤ n + 1) :
    Within 1 (Grammar.arguments (n + 1) count) e ts := by
  rw [Grammar.arguments]
  split
  · exact within_fail _ 1 e ts
  · refine Within.bind (k := 0) (ih.assignment e ts (by omega)) fun x rest len => ?_
    refine within_take? (within_pure _ e rest) fun t rest' hr _ => ?_
    subst hr
    simp only [List.length_cons] at len
    exact (Within.bind (k := 0) (ih.arguments _ e rest' (by omega))
      fun xs rest'' _ => within_pure _ e rest'').mono (by omega)

theorem primaryStep (h : 24 * ts.length + 1 ≤ n + 1) :
    Within 1 (Grammar.primary (n + 1)) e ts := by
  rw [Grammar.primary]
  refine within_peek (fun _ => within_fail _ 1 e []) fun t rest hr => ?_
  subst hr
  simp only [List.length_cons] at h
  simp only
  split
  · exact within_skip (within_pure _ e rest)
  · split
    · refine within_skip (d := 0) ?_
      refine (Within.bind (k := 1) (ih.assignment e rest (by omega)) fun x rest' len => ?_).mono
        (by omega)
      exact Within.bind (k := 0) (within_expect _ _ e rest') fun _ rest'' _ =>
        within_pure _ e rest''
    · exact within_fail _ 1 e _

end EnoughForExpr

theorem enoughForExpr (n : Nat) : EnoughForExpr n := by
  induction n with
  | zero =>
    -- No list of tokens is short enough for a parser without steps.
    constructor <;> intros
    case operand l e ts h =>
      have := rank_bounds l
      omega
    all_goals omega
  | succ n ih =>
    exact ⟨fun _ _ => ih.assignmentStep, fun l _ _ => ih.levelStep l,
      fun l _ _ => ih.operandStep l, fun l x _ _ => ih.chainStep l x, fun _ _ => ih.unaryStep,
      fun x _ _ => ih.callsStep x, fun count _ _ => ih.argumentsStep count,
      fun _ _ => ih.primaryStep⟩

/-! ## The parts of statements -/

theorem within_initializer {n e : Nat} {ts : List Token} (h : 24 * ts.length ≤ n + 8) :
    Within 0 (initializer n) e ts := by
  refine within_take? (within_pure _ e ts) fun t rest hr _ => ?_
  subst hr
  simp only [List.length_cons] at h
  exact (Within.bind (k := 0) ((enoughForExpr n).assignment e rest (by omega))
    fun x rest' _ => within_pure _ e rest').mono (by omega)

theorem within_declarator {n e : Nat} {ts : List Token} (ty : Ty) (mutable : Bool)
    (h : 24 * ts.length ≤ n + 8) : Within 1 (declarator n ty mutable) e ts := by
  refine Within.bind (k := 0) (within_identifier _ e ts) fun name rest len => ?_
  exact Within.bind (d := 0) (k := 0) (within_initializer (by omega)) fun init rest' _ =>
    within_pure _ e rest'

theorem within_declarators {n e : Nat} {ts : List Token} (ty : Ty) (mutable : Bool)
    (h : 24 * ts.length + 1 ≤ n) : Within 1 (declarators n ty mutable) e ts := by
  induction n generalizing ts with
  | zero => omega
  | succ n ih =>
    rw [declarators]
    refine Within.bind (k := 0) (within_declarator ty mutable (by omega)) fun d rest len => ?_
    refine within_take? (within_pure _ e rest) fun t rest' hr _ => ?_
    subst hr
    simp only [List.length_cons] at len
    exact (Within.bind (k := 0) (ih (by omega)) fun ds rest'' _ => within_pure _ e rest'').mono
      (by omega)

theorem within_declarations {n e : Nat} {ts : List Token} (h : 24 * ts.length + 1 ≤ n) :
    Within 0 (declarations n) e ts := by
  induction n generalizing ts with
  | zero => omega
  | succ n ih =>
    rw [declarations]
    refine within_take? (within_pure _ e ts) fun t rest hr _ => ?_
    subst hr
    simp only [List.length_cons] at h
    refine (Within.bind (k := 0) (within_ty e rest) fun ty rest' len => ?_).mono (by omega)
    refine (Within.bind (k := 0) (within_declarators ty _ (by omega)) fun ds rest'' len' => ?_).mono
      (by omega)
    exact Within.bind (d := 0) (k := 0) (ih (by omega)) fun more rest3 _ => within_pure _ e rest3

theorem within_acceptNames {n e : Nat} {ts : List Token} (place : Place)
    (h : 24 * ts.length + 1 ≤ n) : Within 1 (acceptNames n place) e ts := by
  induction n generalizing ts place with
  | zero => omega
  | succ n ih =>
    rw [acceptNames]
    refine Within.bind (k := 0) (within_identifier _ e ts) fun name rest len => ?_
    refine within_take? (within_pure _ e rest) fun t rest' hr _ => ?_
    subst hr
    simp only [List.length_cons] at len
    exact (Within.bind (k := 0) (ih _ (by omega)) fun names rest'' _ =>
      within_pure _ e rest'').mono (by omega)

theorem within_condition {n e : Nat} {ts : List Token} (h : 24 * ts.length ≤ n + 8) :
    Within 1 (condition n) e ts := by
  refine Within.bind (k := 0) (within_expect _ _ e ts) fun _ rest len => ?_
  refine (Within.bind (k := 1) ((enoughForExpr n).level .or e rest
    (by simp only [rank]; omega)) fun x rest' _ => ?_).mono (by omega)
  exact Within.bind (k := 0) (within_expect _ _ e rest') fun _ rest'' _ => within_pure _ e rest''

theorem within_loopInit {n e : Nat} {ts : List Token} (h : 24 * ts.length ≤ n + 8) :
    Within 1 (loopInit n) e ts := by
  refine within_take? ?_ fun t rest hr _ => ?_
  · refine Within.bind (k := 0) (within_identifier _ e ts) fun name rest len => ?_
    refine (Within.bind (k := 1) (within_expect _ _ e rest) fun _ rest' len' => ?_).mono (by omega)
    exact Within.bind (k := 0) ((enoughForExpr n).assignment e rest' (by omega)) fun v rest'' _ =>
      within_pure _ e rest''
  · subst hr
    simp only [List.length_cons] at h
    exact (Within.bind (k := 1) (within_ty e rest) fun ty rest' len =>
      within_declarator ty _ (by omega)).mono (by omega)

theorem within_incrementSign (marks : List Mark) (e : Nat) (ts : List Token) :
    Within 1 (incrementSign marks) e ts := by
  refine within_take? (within_fail _ 1 e ts) fun t rest _ _ => ?_
  exact within_pure t e rest

theorem within_increment (e : Nat) (ts : List Token) : Within 1 increment e ts := by
  refine Within.bind (k := 0) (within_identifier _ e ts) fun name rest _ => ?_
  refine (Within.bind (k := 0) (within_incrementSign _ e rest) fun op rest' _ => ?_).mono (by omega)
  split
  · exact (Within.bind (k := 0) (within_incrementSign _ e rest') fun _ rest'' _ =>
      within_pure _ e rest'').mono (by omega)
  · exact (Within.bind (k := 0) (within_incrementSign _ e rest') fun _ rest'' _ =>
      within_pure _ e rest'').mono (by omega)

theorem within_returnValue {n e : Nat} {ts : List Token} (h : 24 * ts.length + 15 ≤ n) :
    Within 0 (returnValue n) e ts := by
  unfold Within returnValue
  cases ts with
  | nil =>
    refine ⟨by simp, fun a rest hr => ?_⟩
    simp only [Parsed.ok.injEq] at hr
    simp [hr.2]
  | cons t rest =>
    simp only
    split
    · refine ⟨by simp, fun a rest' hr => ?_⟩
      simp only [Parsed.ok.injEq] at hr
      simp [hr.2]
    · exact (Within.bind (k := 0) ((enoughForExpr n).assignment e (t :: rest) h)
        fun x rest' _ => within_pure (some x) e rest').mono (by omega)

/-- The parsers of statements have enough steps, by the number of steps. -/
structure EnoughForStmt (n : Nat) : Prop where
  items : ∀ closer inFn own e ts, 24 * ts.length + 18 ≤ n →
    Within 0 (items n closer inFn own) e ts
  statements : ∀ closer inFn own e ts, 24 * ts.length + 17 ≤ n →
    Within 0 (statements n closer inFn own) e ts
  statement : ∀ inFn e ts, 24 * ts.length + 16 ≤ n → Within 1 (statement n inFn) e ts
  elseIfs : ∀ inFn e ts, 24 * ts.length + 1 ≤ n → Within 0 (elseIfs n inFn) e ts
  elseBlock : ∀ inFn alone e ts, 24 * ts.length + 1 ≤ n → Within 0 (elseBlock n inFn alone) e ts
  block : ∀ inFn own e ts, 24 * ts.length + 1 ≤ n → Within 1 (block n inFn own) e ts
  braced : ∀ inFn own e ts, 24 * ts.length + 1 ≤ n → Within 1 (braced n inFn own) e ts

/-! ## What follows the keyword of a statement

The keyword has paid for the parsers behind it. In a sequence, `k` is the number of tokens that the
parsers take which are still to come.
-/

section Keyword

variable {n e : Nat} {ts : List Token}

theorem within_display (h : 24 * ts.length ≤ n + 8) :
    Within 1 (do
      let _ ← expect .colon .afterIpakita
      let x ← level n .or
      pure (Stmt.display x)) e ts := by
  have hor : rank .or = 13 := rfl
  refine (Within.bind (k := 1) (within_expect _ _ e ts) fun _ rest len => ?_).mono (by omega)
  exact Within.bind (k := 0) ((enoughForExpr n).level .or e rest (by omega)) fun x rest' _ =>
    within_pure _ e rest'

theorem within_accept (h : 24 * ts.length ≤ n + 8) :
    Within 1 (do
      let _ ← expect .colon .afterDawat
      let names ← acceptNames n .dawatName
      pure (Stmt.accept names)) e ts := by
  refine (Within.bind (k := 1) (within_expect _ _ e ts) fun _ rest len => ?_).mono (by omega)
  exact Within.bind (k := 0) (within_acceptNames _ (by omega)) fun names rest' _ =>
    within_pure _ e rest'

theorem within_ret (keyword : Token) (h : 24 * ts.length + 15 ≤ n) :
    Within 0 (do
      let value ← returnValue n
      pure (Stmt.ret keyword value)) e ts :=
  Within.bind (d := 0) (k := 0) (within_returnValue h) fun _ rest _ => within_pure _ e rest

theorem within_exprStmt (h : 24 * ts.length + 15 ≤ n) :
    Within 1 (do
      let x ← assignment n
      pure (Stmt.expr x)) e ts :=
  Within.bind (k := 0) ((enoughForExpr n).assignment e ts h) fun _ rest _ => within_pure _ e rest

end Keyword

namespace EnoughForStmt

variable {n e : Nat} {ts : List Token} (ih : EnoughForStmt n)

include ih

theorem choose (inFn : Bool) (h : 24 * ts.length ≤ n + 8) :
    Within 1 (do
      let x ← condition n
      let body ← Grammar.block n inFn false
      let others ← Grammar.elseIfs n inFn
      let otherwise ← Grammar.elseBlock n inFn others.isEmpty
      pure (Stmt.choose ⟨x, body⟩ others otherwise)) e ts := by
  refine (Within.bind (k := 1) (within_condition h) fun x rest len => ?_).mono (by omega)
  refine Within.bind (k := 0) (ih.block inFn false e rest (by omega)) fun body rest₁ len₁ => ?_
  refine Within.bind (d := 0) (k := 0) (ih.elseIfs inFn e rest₁ (by omega))
    fun others rest₂ len₂ => ?_
  exact Within.bind (d := 0) (k := 0) (ih.elseBlock inFn _ e rest₂ (by omega))
    fun otherwise rest₃ _ => within_pure _ e rest₃

theorem whileLoop (inFn : Bool) (h : 24 * ts.length ≤ n + 8) :
    Within 1 (do
      let _ ← expect .leftParen .afterSamtang
      let x ← assignment n
      let _ ← expect .rightParen .afterCondition
      let body ← Grammar.block n inFn false
      pure (Stmt.whileLoop x body)) e ts := by
  refine (Within.bind (k := 3) (within_expect _ _ e ts) fun _ rest len => ?_).mono (by omega)
  refine Within.bind (k := 2) ((enoughForExpr n).assignment e rest (by omega))
    fun x rest₁ len₁ => ?_
  refine Within.bind (k := 1) (within_expect _ _ e rest₁) fun _ rest₂ len₂ => ?_
  exact Within.bind (k := 0) (ih.block inFn false e rest₂ (by omega)) fun body rest₃ _ =>
    within_pure _ e rest₃

theorem forLoop (inFn : Bool) (h : 24 * ts.length ≤ n + 8) :
    Within 1 (do
      let _ ← expect .leftParen .afterAlangSa
      let init ← loopInit n
      let _ ← expect .comma .afterLoopInitializer
      let x ← assignment n
      let _ ← expect .comma .afterLoopCondition
      let step ← increment
      let _ ← expect .rightParen .afterLoopIncrement
      let body ← Grammar.block n inFn false
      pure (Stmt.forLoop init x step body)) e ts := by
  refine (Within.bind (k := 7) (within_expect _ _ e ts) fun _ rest len => ?_).mono (by omega)
  refine Within.bind (k := 6) (within_loopInit (by omega)) fun init rest₁ len₁ => ?_
  refine Within.bind (k := 5) (within_expect _ _ e rest₁) fun _ rest₂ len₂ => ?_
  refine Within.bind (k := 4) ((enoughForExpr n).assignment e rest₂ (by omega))
    fun x rest₃ len₃ => ?_
  refine Within.bind (k := 3) (within_expect _ _ e rest₃) fun _ rest₄ len₄ => ?_
  refine Within.bind (k := 2) (within_increment e rest₄) fun step rest₅ len₅ => ?_
  refine Within.bind (k := 1) (within_expect _ _ e rest₅) fun _ rest₆ len₆ => ?_
  exact Within.bind (k := 0) (ih.block inFn false e rest₆ (by omega)) fun body rest₇ _ =>
    within_pure _ e rest₇

/-! ## One step of each parser of statements -/

theorem itemsStep (closer : Mark) (inFn own : Bool) (h : 24 * ts.length + 18 ≤ n + 1) :
    Within 0 (Grammar.items (n + 1) closer inFn own) e ts := by
  rw [Grammar.items]
  refine Within.bind (d := 0) (k := 0) (within_declarations (by omega)) fun ds rest len => ?_
  exact Within.bind (d := 0) (k := 0) (ih.statements closer inFn own e rest (by omega))
    fun ss rest' _ => within_pure _ e rest'

theorem statementsStep (closer : Mark) (inFn own : Bool) (h : 24 * ts.length + 17 ≤ n + 1) :
    Within 0 (Grammar.statements (n + 1) closer inFn own) e ts := by
  rw [Grammar.statements]
  refine within_peek (fun _ => within_pure _ e []) fun t rest hr => ?_
  subst hr
  simp only
  split
  · exact within_pure _ e _
  · split
    · exact within_fail _ 0 e _
    · refine (Within.bind (k := 0) (ih.statement inFn e (t :: rest) (by omega))
        fun s rest' len => ?_).mono (by omega)
      split
      · exact within_pure _ e rest'
      · exact Within.bind (d := 0) (k := 0) (ih.statements closer inFn own e rest' (by omega))
          fun ss rest'' _ => within_pure _ e rest''

theorem statementStep (inFn : Bool) (h : 24 * ts.length + 16 ≤ n + 1) :
    Within 1 (Grammar.statement (n + 1) inFn) e ts := by
  have enough : 24 * ts.length + 15 ≤ n := by omega
  rw [Grammar.statement]
  refine within_peek (fun hr => by subst hr; exact within_exprStmt enough) fun t rest hr => ?_
  subst hr
  simp only [List.length_cons] at h
  simp only
  split
  · -- IPAKITA
    exact (within_skip (within_display (by omega))).mono (by omega)
  · -- DAWAT
    exact (within_skip (within_accept (by omega))).mono (by omega)
  · -- KUNG
    exact (within_skip (ih.choose inFn (by omega))).mono (by omega)
  · -- SAMTANG
    exact (within_skip (ih.whileLoop inFn (by omega))).mono (by omega)
  · -- ALANG SA
    exact (within_skip (ih.forLoop inFn (by omega))).mono (by omega)
  · -- IULI
    split
    · exact within_skip (within_ret t (by omega))
    · exact within_failAt _ _ 1 e _
  · -- PUNDOK
    refine within_skip (d := 0) ?_
    exact (Within.bind (k := 0) (ih.braced inFn false e rest (by omega)) fun b rest' _ =>
      within_pure _ e rest').mono (by omega)
  · -- BUHAT
    exact within_fail _ 1 e _
  · exact within_exprStmt enough

theorem elseIfsStep (inFn : Bool) (h : 24 * ts.length + 1 ≤ n + 1) :
    Within 0 (Grammar.elseIfs (n + 1) inFn) e ts := by
  rw [Grammar.elseIfs]
  match ts with
  | [] => exact within_pure [] e []
  | [t] => exact within_pure [] e [t]
  | t :: t' :: rest =>
    simp only [List.length_cons] at h
    show Within 0 (if (t.is .kungDili && t'.is .leftParen) = true then _ else _) e _
    split
    · refine (within_skip (d := 1) ?_).mono (by omega)
      refine Within.bind (k := 0) (within_condition (by simp only [List.length_cons]; omega))
        fun x rest₁ len₁ => ?_
      simp only [List.length_cons] at len₁
      refine (Within.bind (k := 0) (ih.block inFn false e rest₁ (by omega))
        fun b rest₂ len₂ => ?_).mono (by omega)
      exact Within.bind (d := 0) (k := 0) (ih.elseIfs inFn e rest₂ (by omega))
        fun more rest₃ _ => within_pure _ e rest₃
    · exact within_pure [] e _

theorem elseBlockStep (inFn alone : Bool) (h : 24 * ts.length + 1 ≤ n + 1) :
    Within 0 (Grammar.elseBlock (n + 1) inFn alone) e ts := by
  rw [Grammar.elseBlock]
  refine within_nextIs ?_
  cases ts with
  | nil => exact within_pure none e []
  | cons t rest =>
    simp only [List.length_cons] at h
    cases (t :: rest).head?.any (Token.is .kungWala) with
    | false => exact within_pure none e _
    | true =>
      cases alone with
      | true => exact within_fail (fun _ => .elseWithoutElseIf) 0 e (t :: rest)
      | false =>
        refine (within_skip (d := 1) ?_).mono (by omega)
        exact Within.bind (k := 0) (ih.block inFn false e rest (by omega)) fun b rest' _ =>
          within_pure _ e rest'

theorem blockStep (inFn own : Bool) (h : 24 * ts.length + 1 ≤ n + 1) :
    Within 1 (Grammar.block (n + 1) inFn own) e ts := by
  rw [Grammar.block]
  exact (Within.bind (k := 1) (within_expect _ _ e ts) fun _ rest len =>
    ih.braced inFn own e rest (by omega)).mono (by omega)

theorem bracedStep (inFn own : Bool) (h : 24 * ts.length + 1 ≤ n + 1) :
    Within 1 (Grammar.braced (n + 1) inFn own) e ts := by
  rw [Grammar.braced]
  refine (Within.bind (k := 1) (within_expect _ _ e ts) fun _ rest len => ?_).mono (by omega)
  refine Within.bind (d := 0) (k := 1) (ih.items _ inFn own e rest (by omega))
    fun b rest' len' => ?_
  exact Within.bind (k := 0) (within_expect _ _ e rest') fun _ rest'' _ => within_pure _ e rest''

end EnoughForStmt

theorem enoughForStmt (n : Nat) : EnoughForStmt n := by
  induction n with
  | zero => constructor <;> intros <;> omega
  | succ n ih =>
    exact ⟨fun closer inFn own _ _ => ih.itemsStep closer inFn own,
      fun closer inFn own _ _ => ih.statementsStep closer inFn own,
      fun inFn _ _ => ih.statementStep inFn, fun inFn _ _ => ih.elseIfsStep inFn,
      fun inFn alone _ _ => ih.elseBlockStep inFn alone,
      fun inFn own _ _ => ih.blockStep inFn own, fun inFn own _ _ => ih.bracedStep inFn own⟩

/-! ## Programs -/

theorem within_params {n e : Nat} {ts : List Token} (count : Nat) (h : 24 * ts.length + 1 ≤ n) :
    Within 1 (params n count) e ts := by
  induction n generalizing ts count with
  | zero => omega
  | succ n ih =>
    rw [params]
    split
    · exact within_fail _ 1 e ts
    · refine Within.bind (k := 0) (within_ty e ts) fun ty rest len => ?_
      refine (Within.bind (k := 0) (within_identifier _ e rest) fun name rest' len' => ?_).mono
        (by omega)
      refine within_take? (within_pure _ e rest') fun t rest'' hr _ => ?_
      subst hr
      simp only [List.length_cons] at len'
      exact (Within.bind (k := 0) (ih _ (by omega)) fun ps rest3 _ => within_pure _ e rest3).mono
        (by omega)

theorem within_declared (name : Token) (ps : List Param) (body : List Stmt) (ty : Option Ty)
    (e : Nat) (ts : List Token) : Within 0 (declared name ps body ty) e ts := by
  cases ty with
  | none => exact within_pure _ e ts
  | some ty =>
    simp only [declared]
    split
    · exact within_pure _ e ts
    · exact within_failAt _ _ 0 e ts

theorem within_function {n e : Nat} {ts : List Token} (h : 24 * ts.length ≤ n) :
    Within 1 (function n) e ts := by
  refine Within.bind (d := 0) (k := 1) (within_ty? e ts) fun ty rest len => ?_
  refine Within.bind (k := 0) (within_identifier _ e rest) fun name rest1 len1 => ?_
  refine (Within.bind (k := 0) (within_expect _ _ e rest1) fun _ rest2 len2 => ?_).mono (by omega)
  refine Within.bind (d := 0) (k := 0)
    (within_unlessNext ((within_params 0 (by omega)).mono (by omega))) fun ps rest3 len3 => ?_
  refine (Within.bind (k := 0) (within_expect _ _ e rest3) fun _ rest4 len4 => ?_).mono (by omega)
  refine (Within.bind (k := 0) ((enoughForStmt n).block true true e rest4 (by omega))
    fun body rest5 _ => ?_).mono (by omega)
  exact within_declared name ps body ty e rest5

theorem within_functions {n e : Nat} {ts : List Token} (h : 24 * ts.length + 1 ≤ n) :
    Within 0 (functions n) e ts := by
  induction n generalizing ts with
  | zero => omega
  | succ n ih =>
    rw [functions]
    refine within_take? (within_pure _ e ts) fun t rest hr _ => ?_
    subst hr
    simp only [List.length_cons] at h
    refine (Within.bind (k := 0) (within_function (by omega)) fun f rest' len => ?_).mono (by omega)
    exact Within.bind (d := 0) (k := 0) (ih (by omega)) fun fs rest'' _ => within_pure _ e rest''

theorem within_finish (e : Nat) (ts : List Token) : Within 0 finish e ts := by
  unfold finish
  refine within_peekKind ?_
  split
  · exact within_pure () e _
  · exact within_pure () e _
  · exact within_fail _ 0 e _
  · exact within_fail _ 0 e _
  · exact within_fail _ 0 e _

/-- A program is never refused for a lack of steps. -/
theorem program_ne_spent_of_le {n : Nat} (e : Nat) {ts : List Token} (hn : steps ts ≤ n) :
    program n e ts ≠ .spent := by
  have h : 24 * (ts.length + 1) ≤ n := hn
  refine (Within.bind (d := 0) (k := 0) (within_functions (by omega)) fun fs rest len => ?_ :
    Within 0 (program n) e ts).1
  refine (Within.bind (k := 0) (within_expect _ _ e rest) fun _ rest1 len1 => ?_).mono (by omega)
  refine Within.bind (d := 0) (k := 0)
    ((enoughForStmt n).items .katapusan false false e rest1 (by omega))
    fun ss rest2 _ => ?_
  refine (Within.bind (k := 0) (within_expect _ _ e rest2) fun _ rest3 _ => ?_).mono (by omega)
  exact Within.bind (d := 0) (k := 0) (within_finish e rest3) fun _ rest4 _ =>
    within_pure _ e rest4

theorem program_ne_spent (e : Nat) (ts : List Token) : program (steps ts) e ts ≠ .spent :=
  program_ne_spent_of_le e (Nat.le_refl _)

end Grammar

end Sugod
