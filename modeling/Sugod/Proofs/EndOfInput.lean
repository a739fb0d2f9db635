import Sugod.Grammar.Steps
import Mathlib.Data.List.TakeWhile

/-!
# Where the input ends

A list of tokens is read up to its first end token. This module compares what the parsers do with
the tokens in front of the end and what they do with the whole list.

An `Ending` is what may stand behind tokens without being read: nothing, or an end token and
whatever follows it. `Agrees E p q ts` says that `q` does with the tokens `ts` in front of the
ending what `p` does with `ts` alone, the line of the ending being the line of the end of the list.
The two parsers may have different numbers of steps: every parser agrees with itself on more steps,
which is shown by induction on the steps of the first one, one lemma for each parser of the grammar.
Nothing is said of a first parser that spends its steps, and a program never does.

Main results: **`parse_eq_ok_iff`**, the trees that parsing gives are the ones that the grammar
gives in front of the first end token, and **`parse_ends`**, parsing gives a result with any number
of steps from `steps` on, and neither the tokens behind the first end token nor its absence change
that result.
-/

set_option autoImplicit false

namespace Sugod

/-- What stands behind some tokens and is not read with them: nothing, or an end token and what
follows it. -/
structure Ending where
  /-- The tokens from the end of the input on. -/
  tokens : List Token
  /-- The line of the end of the list. -/
  endLine : Nat
  head_isEof : ∀ t ∈ tokens.head?, t.kind = .eof

/-- The line on which the input ends. -/
def Ending.line (E : Ending) : Nat :=
  Parser.nextLine E.endLine E.tokens

/-- The end of the list itself. -/
def Ending.bare (line : Nat) : Ending :=
  ⟨[], line, by simp⟩

/-- A result with some more tokens behind the ones that are left. -/
def Parsed.behind {α : Type} (tail : List Token) : Parsed α → Parsed α
  | .ok a rest => .ok a (rest ++ tail)
  | .error e => .error e
  | .spent => .spent

/-- What a result says when its tokens are forgotten; there is nothing if the steps are spent. -/
def Parsed.outcome? {α : Type} : Parsed α → Option (Except ParseError α)
  | .ok a _ => some (.ok a)
  | .error e => some (.error e)
  | .spent => none

@[simp] theorem Parsed.outcome?_behind {α : Type} (tail : List Token) (r : Parsed α) :
    (r.behind tail).outcome? = r.outcome? := by
  cases r <;> rfl

namespace Parser

variable {α β : Type} {E : Ending} {ts : List Token}

/-- The second parser does in front of the ending what the first one does with the tokens alone,
unless the first one spends its steps. -/
def Agrees (E : Ending) (p q : Parser α) (ts : List Token) : Prop :=
  p E.line ts ≠ .spent → q E.endLine (ts ++ E.tokens) = (p E.line ts).behind E.tokens

theorem agrees_spent (q : Parser α) : Agrees E spent q ts := by
  intro h
  exact absurd rfl h

theorem agrees_pure (a : α) : Agrees E (pure a) (pure a) ts := by
  intro _
  rfl

/-- One parser after another agrees if both of them do; the second one starts behind the first. -/
theorem Agrees.bind_of_ok {p q : Parser α} {f g : α → Parser β} (hp : Agrees E p q ts)
    (hf : ∀ a rest, p E.line ts = .ok a rest → Agrees E (f a) (g a) rest) :
    Agrees E (p >>= f) (q >>= g) ts := by
  intro h
  rw [bind_apply] at h ⊢
  cases hr : p E.line ts with
  | ok a rest =>
    rw [hr] at h
    rw [bind_apply, hp (by simp [hr]), hr]
    exact hf a rest hr h
  | error e =>
    rw [bind_apply, hp (by simp [hr]), hr]
    rfl
  | spent =>
    rw [hr] at h
    exact absurd rfl h

theorem Agrees.bind {p q : Parser α} {f g : α → Parser β} (hp : Agrees E p q ts)
    (hf : ∀ a rest, Agrees E (f a) (g a) rest) : Agrees E (p >>= f) (q >>= g) ts :=
  hp.bind_of_ok fun a rest _ => hf a rest

theorem agrees_failAt (line : Nat) (cause : ParseCause) :
    Agrees E (failAt line cause : Parser α) (failAt line cause) ts := by
  intro _
  rfl

/-- The end of the input is shown alike, as an end token or as the end of the list. -/
theorem found_append (E : Ending) (ts : List Token) : found (ts ++ E.tokens) = found ts := by
  cases ts with
  | cons t rest => rfl
  | nil =>
    cases hE : E.tokens with
    | nil => rfl
    | cons t rest =>
      have ht : t.kind = .eof := E.head_isEof t (by simp [hE])
      simp [found, Token.describe, ht, Kind.isEof]

theorem nextLine_append (E : Ending) (ts : List Token) :
    nextLine E.endLine (ts ++ E.tokens) = nextLine E.line ts := by
  cases ts <;> rfl

theorem agrees_fail (cause : String → ParseCause) :
    Agrees E (fail cause : Parser α) (fail cause) ts := by
  intro _
  show Parsed.error _ = Parsed.error _
  rw [found_append, nextLine_append]

/-- The token at an ending is none of the marks. -/
theorem not_is_of_eof {t : Token} (h : t.kind = .eof) (m : Mark) : t.is m = false := by
  simp [Token.is, h, Kind.is]

theorem head?_any_append (E : Ending) (ts : List Token) (m : Mark) :
    (ts ++ E.tokens).head?.any (Token.is m) = ts.head?.any (Token.is m) := by
  cases ts with
  | cons t rest => rfl
  | nil =>
    cases hE : E.tokens with
    | nil => rfl
    | cons t rest =>
      have ht : t.kind = .eof := E.head_isEof t (by simp [hE])
      simp [not_is_of_eof ht]

theorem agrees_take? (marks : List Mark) : Agrees E (take? marks) (take? marks) ts := by
  intro _
  cases ts with
  | cons t rest =>
    simp only [take?, List.cons_append]
    split <;> rfl
  | nil =>
    cases hE : E.tokens with
    | nil => simp [take?, Parsed.behind]
    | cons t rest =>
      have ht : t.kind = .eof := E.head_isEof t (by simp [hE])
      simp [take?, not_is_of_eof ht, Parsed.behind]

theorem agrees_nextIs (m : Mark) : Agrees E (nextIs m) (nextIs m) ts := by
  intro _
  show Parsed.ok _ _ = Parsed.ok _ _
  rw [head?_any_append]

/-- A mark that is next is there. -/
theorem exists_cons_of_nextIs {m : Mark} {e : Nat} {rest : List Token}
    (h : nextIs m e ts = .ok true rest) : ∃ t ts', rest = t :: ts' := by
  simp only [nextIs, Parsed.ok.injEq] at h
  obtain ⟨hnext, rfl⟩ := h
  cases ts with
  | nil => simp at hnext
  | cons t ts' => exact ⟨t, ts', rfl⟩

theorem agrees_unlessNext {m : Mark} {a : α} {p q : Parser α} (h : Agrees E p q ts) :
    Agrees E (unlessNext m a p) (unlessNext m a q) ts := by
  unfold Agrees unlessNext
  rw [head?_any_append]
  cases ts.head?.any (Token.is m) with
  | true => intro _; rfl
  | false => exact h

theorem agrees_expect (m : Mark) (place : Place) :
    Agrees E (expect m place) (expect m place) ts := by
  intro _
  cases ts with
  | cons t rest =>
    simp only [expect, List.cons_append]
    split <;> rfl
  | nil =>
    cases hE : E.tokens with
    | nil => simp [expect, Parsed.behind, Ending.line, hE, nextLine]
    | cons t rest =>
      have ht : t.kind = .eof := E.head_isEof t (by simp [hE])
      simp [expect, not_is_of_eof ht, Parsed.behind, Ending.line, hE, nextLine, Token.describe, ht,
        Kind.isEof]

theorem agrees_identifier (place : Place) :
    Agrees E (identifier place) (identifier place) ts := by
  intro _
  cases ts with
  | cons t rest =>
    simp only [identifier, List.cons_append]
    split <;> rfl
  | nil =>
    cases hE : E.tokens with
    | nil => simp [identifier, Parsed.behind, Ending.line, hE, nextLine]
    | cons t rest =>
      have ht : t.kind = .eof := E.head_isEof t (by simp [hE])
      simp [identifier, Parsed.behind, Ending.line, hE, nextLine, Token.describe, ht, Kind.isEof]

theorem agrees_ty? : Agrees E ty? ty? ts := by
  intro _
  cases ts with
  | cons t rest =>
    simp only [ty?, List.cons_append]
    split <;> rfl
  | nil =>
    cases hE : E.tokens with
    | nil => simp [ty?, Parsed.behind]
    | cons t rest =>
      have ht : t.kind = .eof := E.head_isEof t (by simp [hE])
      simp [ty?, ht, Kind.ty?, Parsed.behind]

theorem agrees_ty : Agrees E ty ty ts := by
  refine agrees_ty?.bind fun found rest => ?_
  cases found with
  | some ty => exact agrees_pure ty
  | none => exact agrees_fail _

/-- A choice on the next token, which is not taken, and where an end token is taken for the end. -/
theorem agrees_peek {f g : Option Token → Parser α}
    (heof : ∀ t : Token, t.kind = .eof → g (some t) = g none)
    (hnone : Agrees E (f none) (g none) [])
    (hsome : ∀ t rest, Agrees E (f (some t)) (g (some t)) (t :: rest)) :
    Agrees E (peek >>= f) (peek >>= g) ts := by
  -- Only where `ts` has run out does the second parser look at the ending.
  cases ts with
  | cons t rest => exact hsome t rest
  | nil =>
    have hend : g E.tokens.head? = g none := by
      cases hE : E.tokens with
      | nil => rfl
      | cons t rest => exact heof t (E.head_isEof t (by simp [hE]))
    intro h
    show g E.tokens.head? E.endLine ([] ++ E.tokens) = _
    rw [hend]
    exact hnone h

/-- A choice on the kind of the next token, as `agrees_peek`. -/
theorem agrees_peekKind {f g : Option Kind → Parser α} (heof : g (some .eof) = g none)
    (hnone : Agrees E (f none) (g none) [])
    (hsome : ∀ t rest, Agrees E (f (some t.kind)) (g (some t.kind)) (t :: rest)) :
    Agrees E (peekKind >>= f) (peekKind >>= g) ts :=
  agrees_peek (f := fun t? => f (t?.map Token.kind)) (g := fun t? => g (t?.map Token.kind))
    (fun t ht => by simp [ht, heof]) hnone hsome

/-- Going on behind a token that is there. -/
theorem agrees_skip {t : Token} {f g : Unit → Parser α} (h : Agrees E (f ()) (g ()) ts) :
    Agrees E (skip >>= f) (skip >>= g) (t :: ts) :=
  h

end Parser

namespace Grammar

open Sugod.Parser

variable {E : Ending} {n m : Nat} {ts : List Token}

theorem agrees_assignTo (equals : Token) (value x : Expr) :
    Agrees E (assignTo equals value x) (assignTo equals value x) ts := by
  unfold assignTo
  split
  · exact agrees_pure _
  · exact agrees_failAt _ _

/-- The parsers of expressions agree with themselves on other steps. -/
structure ExprAgrees (E : Ending) (n m : Nat) : Prop where
  assignment : ∀ ts, Agrees E (assignment n) (assignment m) ts
  level : ∀ l ts, Agrees E (level n l) (level m l) ts
  operand : ∀ l ts, Agrees E (operand n l) (operand m l) ts
  chain : ∀ l x ts, Agrees E (chain n l x) (chain m l x) ts
  unary : ∀ ts, Agrees E (unary n) (unary m) ts
  calls : ∀ x ts, Agrees E (calls n x) (calls m x) ts
  arguments : ∀ count ts, Agrees E (arguments n count) (arguments m count) ts
  primary : ∀ ts, Agrees E (primary n) (primary m) ts

/-! ### One step of each parser of expressions, if the parsers that it enters agree -/

namespace ExprAgrees

variable (ih : ExprAgrees E n m)

include ih

theorem assignmentStep (ts : List Token) :
    Agrees E (Grammar.assignment (n + 1)) (Grammar.assignment (m + 1)) ts := by
  rw [Grammar.assignment, Grammar.assignment]
  refine (ih.level .or ts).bind fun x rest => (agrees_take? _).bind fun equals? rest' => ?_
  cases equals? with
  | none => exact agrees_pure x
  | some equals => exact (ih.assignment rest').bind fun v _ => agrees_assignTo equals v x

theorem levelStep (l : Level) (ts : List Token) :
    Agrees E (Grammar.level (n + 1) l) (Grammar.level (m + 1) l) ts := by
  rw [Grammar.level, Grammar.level]
  exact (ih.operand l ts).bind fun x rest => ih.chain l x rest

theorem operandStep (l : Level) (ts : List Token) :
    Agrees E (Grammar.operand (n + 1) l) (Grammar.operand (m + 1) l) ts := by
  rw [Grammar.operand, Grammar.operand]
  cases l.tighter? with
  | some l' => exact ih.level l' ts
  | none => exact ih.unary ts

theorem chainStep (l : Level) (x : Expr) (ts : List Token) :
    Agrees E (Grammar.chain (n + 1) l x) (Grammar.chain (m + 1) l x) ts := by
  rw [Grammar.chain, Grammar.chain]
  refine (agrees_take? _).bind fun op? rest => ?_
  cases op? with
  | none => exact agrees_pure x
  | some op => exact (ih.operand l rest).bind fun y rest' => ih.chain l _ rest'

theorem unaryStep (ts : List Token) :
    Agrees E (Grammar.unary (n + 1)) (Grammar.unary (m + 1)) ts := by
  rw [Grammar.unary, Grammar.unary]
  refine (agrees_take? _).bind fun op? rest => ?_
  cases op? with
  | some op => exact (ih.unary rest).bind fun x _ => agrees_pure _
  | none => exact (ih.primary rest).bind fun x rest' => ih.calls x rest'

theorem callsStep (x : Expr) (ts : List Token) :
    Agrees E (Grammar.calls (n + 1) x) (Grammar.calls (m + 1) x) ts := by
  rw [Grammar.calls, Grammar.calls]
  refine (agrees_take? _).bind fun paren? rest => ?_
  cases paren? with
  | none => exact agrees_pure x
  | some _ =>
    refine (agrees_unlessNext (ih.arguments 0 rest)).bind fun args _ => ?_
    exact (agrees_expect _ _).bind fun paren rest' => ih.calls _ rest'

theorem argumentsStep (count : Nat) (ts : List Token) :
    Agrees E (Grammar.arguments (n + 1) count) (Grammar.arguments (m + 1) count) ts := by
  rw [Grammar.arguments, Grammar.arguments]
  split
  · exact agrees_fail _
  · refine (ih.assignment ts).bind fun x _ => (agrees_take? _).bind fun comma? rest => ?_
    cases comma? with
    | none => exact agrees_pure [x]
    | some _ => exact (ih.arguments _ rest).bind fun xs _ => agrees_pure _

theorem primaryStep (ts : List Token) :
    Agrees E (Grammar.primary (n + 1)) (Grammar.primary (m + 1)) ts := by
  rw [Grammar.primary, Grammar.primary]
  refine agrees_peek (fun t ht => ?_) (agrees_fail _) fun t rest => ?_
  · simp [atom?, literal?, ht, not_is_of_eof ht]
  · simp only
    split
    · exact agrees_skip (agrees_pure _)
    · split
      · refine agrees_skip ((ih.assignment rest).bind fun x _ => ?_)
        exact (agrees_expect _ _).bind fun _ _ => agrees_pure _
      · exact agrees_fail _

theorem succ : ExprAgrees E (n + 1) (m + 1) :=
  ⟨ih.assignmentStep, ih.levelStep, ih.operandStep, ih.chainStep, ih.unaryStep, ih.callsStep,
    ih.argumentsStep, ih.primaryStep⟩

end ExprAgrees

theorem exprAgrees (E : Ending) (h : n ≤ m) : ExprAgrees E n m := by
  induction n generalizing m with
  | zero => constructor <;> intros <;> exact agrees_spent _
  | succ n ih =>
    obtain ⟨m, rfl⟩ : ∃ k, m = k + 1 := ⟨m - 1, by omega⟩
    exact (ih (by omega)).succ

theorem agrees_initializer (h : n ≤ m) : Agrees E (initializer n) (initializer m) ts := by
  refine (agrees_take? _).bind fun equals? rest => ?_
  cases equals? with
  | none => exact agrees_pure none
  | some _ => exact ((exprAgrees E h).assignment rest).bind fun x _ => agrees_pure _

theorem agrees_declarator (h : n ≤ m) (ty : Ty) (mutable : Bool) :
    Agrees E (declarator n ty mutable) (declarator m ty mutable) ts :=
  (agrees_identifier _).bind fun _ _ => (agrees_initializer h).bind fun _ _ => agrees_pure _

theorem agrees_declarators (h : n ≤ m) (ty : Ty) (mutable : Bool) :
    Agrees E (declarators n ty mutable) (declarators m ty mutable) ts := by
  induction n generalizing m ts with
  | zero => exact agrees_spent _
  | succ n ih =>
    obtain ⟨m, rfl⟩ : ∃ k, m = k + 1 := ⟨m - 1, by omega⟩
    rw [declarators, declarators]
    refine (agrees_declarator (by omega) ty mutable).bind fun d _ =>
      (agrees_take? _).bind fun comma? rest => ?_
    cases comma? with
    | none => exact agrees_pure [d]
    | some _ => exact (ih (by omega)).bind fun ds _ => agrees_pure _

theorem agrees_declarations (h : n ≤ m) : Agrees E (declarations n) (declarations m) ts := by
  induction n generalizing m ts with
  | zero => exact agrees_spent _
  | succ n ih =>
    obtain ⟨m, rfl⟩ : ∃ k, m = k + 1 := ⟨m - 1, by omega⟩
    rw [declarations, declarations]
    refine (agrees_take? _).bind fun keyword? rest => ?_
    cases keyword? with
    | none => exact agrees_pure []
    | some keyword =>
      exact agrees_ty.bind fun ty _ => (agrees_declarators (by omega) ty _).bind fun ds _ =>
        (ih (by omega)).bind fun more _ => agrees_pure _

theorem agrees_acceptNames (h : n ≤ m) (place : Place) :
    Agrees E (acceptNames n place) (acceptNames m place) ts := by
  induction n generalizing m ts place with
  | zero => exact agrees_spent _
  | succ n ih =>
    obtain ⟨m, rfl⟩ : ∃ k, m = k + 1 := ⟨m - 1, by omega⟩
    rw [acceptNames, acceptNames]
    refine (agrees_identifier place).bind fun name _ => (agrees_take? _).bind fun comma? rest => ?_
    cases comma? with
    | none => exact agrees_pure [name]
    | some _ => exact (ih (by omega) _).bind fun names _ => agrees_pure _

theorem agrees_condition (h : n ≤ m) : Agrees E (condition n) (condition m) ts :=
  (agrees_expect _ _).bind fun _ rest => ((exprAgrees E h).level .or rest).bind fun _ _ =>
    (agrees_expect _ _).bind fun _ _ => agrees_pure _

theorem agrees_loopInit (h : n ≤ m) : Agrees E (loopInit n) (loopInit m) ts := by
  refine (agrees_take? _).bind fun keyword? rest => ?_
  cases keyword? with
  | some keyword => exact agrees_ty.bind fun ty _ => agrees_declarator h ty _
  | none =>
    exact (agrees_identifier _).bind fun name _ => (agrees_expect _ _).bind fun _ rest' =>
      ((exprAgrees E h).assignment rest').bind fun v _ => agrees_pure _

theorem agrees_incrementSign (marks : List Mark) :
    Agrees E (incrementSign marks) (incrementSign marks) ts := by
  refine (agrees_take? _).bind fun op? rest => ?_
  cases op? with
  | some op => exact agrees_pure op
  | none => exact agrees_fail _

theorem agrees_increment : Agrees E increment increment ts := by
  refine (agrees_identifier _).bind fun name _ => (agrees_incrementSign _).bind fun op rest => ?_
  split
  · exact (agrees_incrementSign _).bind fun _ _ => agrees_pure _
  · exact (agrees_incrementSign _).bind fun _ _ => agrees_pure _

theorem agrees_returnValue (h : n ≤ m) : Agrees E (returnValue n) (returnValue m) ts := by
  cases ts with
  | nil =>
    intro _
    cases hE : E.tokens with
    | nil => simp [returnValue, Parsed.behind]
    | cons t rest =>
      have ht : t.kind = .eof := E.head_isEof t (by simp [hE])
      simp [returnValue, Parsed.behind, ht]
  | cons t rest =>
    have value : Agrees E (some <$> assignment n) (some <$> assignment m) (t :: rest) :=
      ((exprAgrees E h).assignment (t :: rest)).bind fun x _ => agrees_pure _
    unfold Agrees returnValue
    simp only [List.cons_append]
    split
    · intro _
      rfl
    · exact value

/-- The one token behind `KUNG DILI` that is looked at may be the end token. -/
theorem agrees_atElseIf : Agrees E atElseIf atElseIf ts := by
  have at_eof : ∀ t : Token, ∀ tail : List Token, (∀ u ∈ tail.head?, u.kind = .eof) →
      atElseIf E.endLine (t :: tail) = .ok false (t :: tail) := by
    intro t tail htail
    cases tail with
    | nil => rfl
    | cons u tail =>
      have hu : u.kind = .eof := htail u rfl
      simp [atElseIf, not_is_of_eof hu]
  intro _
  match ts with
  | [] =>
    cases hE : E.tokens with
    | nil => rfl
    | cons t rest =>
      have ht : t.kind = .eof := E.head_isEof t (by simp [hE])
      cases rest <;> simp [atElseIf, Parsed.behind, not_is_of_eof ht]
  | [t] => exact at_eof t E.tokens E.head_isEof
  | t :: t' :: rest => rfl

theorem exists_cons_of_atElseIf {e : Nat} {rest : List Token}
    (h : atElseIf e ts = .ok true rest) : ∃ t ts', rest = t :: ts' := by
  unfold atElseIf at h
  split at h
  · rename_i t t' _
    simp only [Parsed.ok.injEq] at h
    exact ⟨t, _, h.2.symm⟩
  · simp at h

/-- The parsers of statements agree with themselves on other steps. -/
structure StmtAgrees (E : Ending) (n m : Nat) : Prop where
  items : ∀ closer inFn own ts, Agrees E (items n closer inFn own) (items m closer inFn own) ts
  statements : ∀ closer inFn own ts,
    Agrees E (statements n closer inFn own) (statements m closer inFn own) ts
  statement : ∀ inFn ts, Agrees E (statement n inFn) (statement m inFn) ts
  elseIfs : ∀ inFn ts, Agrees E (elseIfs n inFn) (elseIfs m inFn) ts
  elseBlock : ∀ inFn alone ts, Agrees E (elseBlock n inFn alone) (elseBlock m inFn alone) ts
  block : ∀ inFn own ts, Agrees E (block n inFn own) (block m inFn own) ts
  braced : ∀ inFn own ts, Agrees E (braced n inFn own) (braced m inFn own) ts

/-! ### One step of each parser of statements, if the parsers that it enters agree -/

namespace StmtAgrees

variable (h : n ≤ m) (ih : StmtAgrees E n m)

include ih

theorem blockStep (inFn own : Bool) (ts : List Token) :
    Agrees E (Grammar.block (n + 1) inFn own) (Grammar.block (m + 1) inFn own) ts := by
  rw [Grammar.block, Grammar.block]
  exact (agrees_expect _ _).bind fun _ rest => ih.braced inFn own rest

theorem bracedStep (inFn own : Bool) (ts : List Token) :
    Agrees E (Grammar.braced (n + 1) inFn own) (Grammar.braced (m + 1) inFn own) ts := by
  rw [Grammar.braced, Grammar.braced]
  refine (agrees_expect _ _).bind fun _ rest => ?_
  refine (ih.items .rightBrace inFn own rest).bind fun body _ => ?_
  exact (agrees_expect _ _).bind fun _ _ => agrees_pure _

theorem elseBlockStep (inFn alone : Bool) (ts : List Token) :
    Agrees E (Grammar.elseBlock (n + 1) inFn alone) (Grammar.elseBlock (m + 1) inFn alone) ts := by
  rw [Grammar.elseBlock, Grammar.elseBlock]
  refine (agrees_nextIs _).bind_of_ok fun wala rest hwala => ?_
  cases wala with
  | false => exact agrees_pure none
  | true =>
    obtain ⟨t, rest, rfl⟩ := exists_cons_of_nextIs hwala
    cases alone with
    | true => exact agrees_fail fun _ => .elseWithoutElseIf
    | false => exact agrees_skip ((ih.block inFn false rest).bind fun b _ => agrees_pure _)

theorem statementsStep (closer : Mark) (inFn own : Bool) (ts : List Token) :
    Agrees E (Grammar.statements (n + 1) closer inFn own)
      (Grammar.statements (m + 1) closer inFn own) ts := by
  rw [Grammar.statements, Grammar.statements]
  refine agrees_peek (fun t ht => ?_) (agrees_pure []) fun t rest => ?_
  · simp [ht]
  · simp only
    split
    · exact agrees_pure []
    · split
      · exact agrees_fail _
      · refine (ih.statement inFn (t :: rest)).bind fun s rest' => ?_
        split
        · exact agrees_pure [s]
        · exact (ih.statements closer inFn own rest').bind fun ss _ => agrees_pure _

include h

theorem itemsStep (closer : Mark) (inFn own : Bool) (ts : List Token) :
    Agrees E (Grammar.items (n + 1) closer inFn own) (Grammar.items (m + 1) closer inFn own)
      ts := by
  rw [Grammar.items, Grammar.items]
  refine (agrees_declarations h).bind fun ds rest => ?_
  exact (ih.statements closer inFn own rest).bind fun ss _ => agrees_pure _

theorem elseIfsStep (inFn : Bool) (ts : List Token) :
    Agrees E (Grammar.elseIfs (n + 1) inFn) (Grammar.elseIfs (m + 1) inFn) ts := by
  rw [Grammar.elseIfs, Grammar.elseIfs]
  refine agrees_atElseIf.bind_of_ok fun more rest hmore => ?_
  cases more with
  | false => exact agrees_pure []
  | true =>
    obtain ⟨t, rest, rfl⟩ := exists_cons_of_atElseIf hmore
    refine agrees_skip ((agrees_condition h).bind fun x rest₁ => ?_)
    refine (ih.block inFn false rest₁).bind fun b rest₂ => ?_
    exact (ih.elseIfs inFn rest₂).bind fun others _ => agrees_pure _

theorem statementStep (inFn : Bool) (ts : List Token) :
    Agrees E (Grammar.statement (n + 1) inFn) (Grammar.statement (m + 1) inFn) ts := by
  have expr := exprAgrees E h
  rw [Grammar.statement, Grammar.statement]
  refine agrees_peek (fun t ht => ?_) ((expr.assignment []).bind fun x _ => agrees_pure _)
    fun t rest => ?_
  · simp [ht]
  · simp only
    split
    · -- IPAKITA
      refine agrees_skip ((agrees_expect _ _).bind fun _ rest' => ?_)
      exact (expr.level .or rest').bind fun x _ => agrees_pure _
    · -- DAWAT
      refine agrees_skip ((agrees_expect _ _).bind fun _ _ => ?_)
      exact (agrees_acceptNames h _).bind fun names _ => agrees_pure _
    · -- KUNG
      refine agrees_skip ((agrees_condition h).bind fun x rest₁ => ?_)
      refine (ih.block inFn false rest₁).bind fun b rest₂ => ?_
      refine (ih.elseIfs inFn rest₂).bind fun others rest₃ => ?_
      exact (ih.elseBlock inFn _ rest₃).bind fun o _ => agrees_pure _
    · -- SAMTANG
      refine agrees_skip ((agrees_expect _ _).bind fun _ rest₁ => ?_)
      refine (expr.assignment rest₁).bind fun x _ => (agrees_expect _ _).bind fun _ rest₂ => ?_
      exact (ih.block inFn false rest₂).bind fun b _ => agrees_pure _
    · -- ALANG SA
      refine agrees_skip ((agrees_expect _ _).bind fun _ _ => ?_)
      refine (agrees_loopInit h).bind fun init _ => (agrees_expect _ _).bind fun _ rest₁ => ?_
      refine (expr.assignment rest₁).bind fun x _ => (agrees_expect _ _).bind fun _ _ => ?_
      refine agrees_increment.bind fun step _ => (agrees_expect _ _).bind fun _ rest₂ => ?_
      exact (ih.block inFn false rest₂).bind fun b _ => agrees_pure _
    · -- IULI
      split
      · exact agrees_skip ((agrees_returnValue h).bind fun v _ => agrees_pure _)
      · exact agrees_failAt _ _
    · -- PUNDOK
      exact agrees_skip ((ih.braced inFn false rest).bind fun b _ => agrees_pure _)
    · -- BUHAT
      exact agrees_fail _
    · exact (expr.assignment (t :: rest)).bind fun x _ => agrees_pure _

theorem succ : StmtAgrees E (n + 1) (m + 1) :=
  ⟨itemsStep h ih, ih.statementsStep, statementStep h ih, elseIfsStep h ih, ih.elseBlockStep,
    ih.blockStep, ih.bracedStep⟩

end StmtAgrees

theorem stmtAgrees (E : Ending) (h : n ≤ m) : StmtAgrees E n m := by
  induction n generalizing m with
  | zero => constructor <;> intros <;> exact agrees_spent _
  | succ n ih =>
    obtain ⟨m, rfl⟩ : ∃ k, m = k + 1 := ⟨m - 1, by omega⟩
    have hle : n ≤ m := by omega
    exact StmtAgrees.succ hle (ih hle)

theorem agrees_params (h : n ≤ m) (count : Nat) :
    Agrees E (params n count) (params m count) ts := by
  induction n generalizing m ts count with
  | zero => exact agrees_spent _
  | succ n ih =>
    obtain ⟨m, rfl⟩ : ∃ k, m = k + 1 := ⟨m - 1, by omega⟩
    rw [params, params]
    split
    · exact agrees_fail _
    · refine agrees_ty.bind fun ty _ => (agrees_identifier _).bind fun name _ =>
        (agrees_take? _).bind fun comma? rest => ?_
      cases comma? with
      | none => exact agrees_pure _
      | some _ => exact (ih (by omega) _).bind fun ps _ => agrees_pure _

theorem agrees_declared (name : Token) (ps : List Param) (body : List Stmt) (ty : Option Ty) :
    Agrees E (declared name ps body ty) (declared name ps body ty) ts := by
  cases ty with
  | none => exact agrees_pure _
  | some ty =>
    simp only [declared]
    split
    · exact agrees_pure _
    · exact agrees_failAt _ _

theorem agrees_function (h : n ≤ m) : Agrees E (function n) (function m) ts :=
  agrees_ty?.bind fun ty _ => (agrees_identifier _).bind fun name _ =>
    (agrees_expect _ _).bind fun _ _ =>
    (agrees_unlessNext (agrees_params h 0)).bind fun ps _ =>
    (agrees_expect _ _).bind fun _ rest =>
    ((stmtAgrees E h).block true true rest).bind fun body _ =>
    agrees_declared name ps body ty

theorem agrees_functions (h : n ≤ m) : Agrees E (functions n) (functions m) ts := by
  induction n generalizing m ts with
  | zero => exact agrees_spent _
  | succ n ih =>
    obtain ⟨m, rfl⟩ : ∃ k, m = k + 1 := ⟨m - 1, by omega⟩
    rw [functions, functions]
    refine (agrees_take? _).bind fun keyword? rest => ?_
    cases keyword? with
    | none => exact agrees_pure []
    | some _ => exact (agrees_function (by omega)).bind fun f _ =>
        (ih (by omega)).bind fun fs _ => agrees_pure _

theorem agrees_finish : Agrees E finish finish ts := by
  refine agrees_peekKind rfl (agrees_pure ()) fun t rest => ?_
  split
  · exact agrees_pure ()
  · exact agrees_pure ()
  · exact agrees_fail _
  · exact agrees_fail _
  · exact agrees_fail _

/-- A program is read alike in front of every ending on the same line, with the same steps or with
more of them. -/
theorem agrees_program (h : n ≤ m) : Agrees E (program n) (program m) ts :=
  (agrees_functions h).bind fun _ _ => (agrees_expect _ _).bind fun _ rest =>
    ((stmtAgrees E h).items .katapusan false false rest).bind fun _ _ =>
    (agrees_expect _ _).bind fun _ _ => agrees_finish.bind fun _ _ => agrees_pure _

/-- With enough steps for the tokens in front of an ending, neither more steps nor the tokens of the
ending make a difference. -/
theorem outcome?_program_append (E : Ending) (h : steps ts ≤ m) :
    (program m E.endLine (ts ++ E.tokens)).outcome? =
      (program (steps ts) E.line ts).outcome? := by
  rw [agrees_program h (program_ne_spent E.line ts), Parsed.outcome?_behind]

theorem some_parse (tokens : List Token) :
    some (parse tokens) = (program (steps tokens) (lastLine tokens) tokens).outcome? := by
  unfold parse
  cases h : program (steps tokens) (lastLine tokens) tokens with
  | ok p rest => rfl
  | error e => rfl
  | spent => exact absurd h (program_ne_spent _ _)

/-- Parsing a list with an ending is parsing what stands in front of the ending. -/
theorem some_parse_append {tail : List Token} (h : ∀ t ∈ tail.head?, t.kind = .eof)
    (ts : List Token) :
    some (parse (ts ++ tail)) =
      (program (steps ts) (nextLine (lastLine (ts ++ tail)) tail) ts).outcome? := by
  have hsteps : steps ts ≤ steps (ts ++ tail) := by
    simp only [steps, List.length_append]
    omega
  rw [some_parse]
  exact outcome?_program_append ⟨tail, lastLine (ts ++ tail), h⟩ hsteps

/-- Two endings on the same line make no difference. -/
theorem parse_append_congr (ts : List Token) {tail tail' : List Token}
    (h : ∀ t ∈ tail.head?, t.kind = .eof) (h' : ∀ t ∈ tail'.head?, t.kind = .eof)
    (hline : nextLine (lastLine (ts ++ tail)) tail = nextLine (lastLine (ts ++ tail')) tail') :
    parse (ts ++ tail) = parse (ts ++ tail') := by
  apply Option.some.inj
  rw [some_parse_append h, some_parse_append h', hline]

/-- The tokens in front of the first end token. -/
def body (tokens : List Token) : List Token :=
  tokens.takeWhile fun t => !t.kind.isEof

/-- The line on which the input ends: that of the first end token, or else of the last token. -/
def endLine (tokens : List Token) : Nat :=
  match tokens.find? fun t => t.kind.isEof with
  | some t => t.line
  | none => (tokens.getLast?.map Token.line).getD 1

/-- Behind the tokens in front of the first end token there is that token, or nothing. -/
theorem exists_append_of_body (tokens : List Token) :
    ∃ tail, tokens = body tokens ++ tail ∧ (∀ t ∈ tail.head?, t.kind = .eof) ∧
      nextLine (lastLine tokens) tail = endLine tokens := by
  have hfind := tokens.find?_eq_head?_dropWhile_not fun t => t.kind.isEof
  refine ⟨tokens.dropWhile fun t => !t.kind.isEof, List.takeWhile_append_dropWhile.symm, ?_, ?_⟩
  · intro t ht
    rw [← hfind] at ht
    exact Kind.isEof_iff.mp (List.find?_some (p := fun t : Token => t.kind.isEof) ht)
  · unfold endLine
    rw [hfind]
    cases tokens.dropWhile fun t => !t.kind.isEof <;> rfl

/-- What parsing gives is what the grammar gives on the tokens in front of the first end token. -/
theorem parse_eq_ok_iff {tokens : List Token} {p : Program} :
    parse tokens = .ok p ↔
      ∃ rest, program (steps (body tokens)) (endLine tokens) (body tokens) = .ok p rest := by
  obtain ⟨tail, heq, heof, hline⟩ := exists_append_of_body tokens
  have hparse := some_parse_append heof (body tokens)
  rw [← heq, hline] at hparse
  rw [← Option.some_inj, hparse]
  cases program (steps (body tokens)) (endLine tokens) (body tokens) <;> simp [Parsed.outcome?]

/-- Parsing always gives a result, which is the one of every sufficient number of steps; a list that
is cut behind its first end token has the same result, and a list without an end token has the
result that it has with an end token on the line of its last token. -/
theorem parse_ends (ts : List Token) :
    (∀ n, steps ts ≤ n → (program n (lastLine ts) ts).outcome? = some (parse ts)) ∧
    (∀ before e after, ts = before ++ e :: after → (∀ t ∈ before, t.kind ≠ .eof) →
      e.kind = .eof → parse ts = parse (before ++ [e])) ∧
    ((∀ t ∈ ts, t.kind ≠ .eof) → ∀ lexeme,
      parse ts = parse (ts ++ [⟨.eof, lexeme, lastLine ts⟩])) := by
  refine ⟨fun n hn => ?_, ?_, ?_⟩
  · have hsame := outcome?_program_append (Ending.bare (lastLine ts)) hn
    rw [show (Ending.bare (lastLine ts)).tokens = [] from rfl, List.append_nil] at hsame
    rw [some_parse]
    exact hsame
  · rintro before e after rfl - he
    exact parse_append_congr before (by simp [he]) (by simp [he]) rfl
  · intro _ lexeme
    calc parse ts = parse (ts ++ []) := by rw [List.append_nil]
      _ = parse (ts ++ [⟨.eof, lexeme, lastLine ts⟩]) :=
        parse_append_congr ts (by simp) (by simp) (by simp [nextLine])

/-- A program on two lines, whether an end token and a keyword follow it or not. -/
theorem parse_ends_two_lines :
    let ts : List Token := [⟨.mark .sugod, "SUGOD", 1⟩, ⟨.mark .katapusan, "KATAPUSAN", 2⟩]
    let e : Token := ⟨.eof, "", 3⟩
    let buhat : Token := ⟨.mark .buhat, "BUHAT", 4⟩
    (program (steps ts + 1) 2 ts).outcome? = some (.ok []) ∧
      parse (ts ++ e :: [buhat]) = parse (ts ++ [e]) ∧
      parse (ts ++ [buhat]) = .error ⟨.misplacedFunction, 4⟩ ∧
      parse (ts ++ [buhat]) = parse (ts ++ [buhat] ++ [⟨.eof, "", 4⟩]) := by
  intro ts e buhat
  have hts : ∀ t ∈ ts, t.kind ≠ .eof := by simp [ts]
  have hparse : parse ts = .ok [] := by rfl
  refine ⟨?_, ?_, by rfl, ?_⟩
  · rw [← hparse]
    exact (parse_ends ts).1 _ (Nat.le_succ _)
  · exact (parse_ends (ts ++ e :: [buhat])).2.1 ts e [buhat] rfl hts rfl
  · exact (parse_ends (ts ++ [buhat])).2.2 (by simp [ts, buhat]) ""

end Grammar

end Sugod
