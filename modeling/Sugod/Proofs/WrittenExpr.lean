import Sugod.Proofs.Follow

/-!
# Written expressions

The parsers of expressions read back every expression that is written out by the grammar, if they
have enough steps and no token behind it continues it. `ExprPhrase.Read` says for each rank what its
parser does, there is one lemma for each production, and `ExprPhrase.Derives.read` is the induction
over derivations.

The grammar writes the operators of a level, and the argument lists of a call, from the left, while
the parsers read them in a loop that is handed what stands in front. So the statement about a level
is that reading an expression of it comes down to the loop, at the place behind the expression.

How many steps are left there does not matter: with too few steps a parser says so, which `Reads`
admits, and it is ruled out only once, for whole programs.
-/

set_option autoImplicit false

namespace Sugod

namespace Parser

variable {α β : Type} {e : Nat} {t : Token} {ts mid rest : List Token}

/-! ## Reading -/

/-- The parser gives a value and leaves `rest`, unless it has too few steps. -/
def Reads (p : Parser α) (e : Nat) (ts : List Token) (a : α) (rest : List Token) : Prop :=
  p e ts = .ok a rest ∨ p e ts = .spent

theorem reads_spent (a : α) : Reads spent e ts a rest :=
  .inr rfl

theorem reads_pure (a : α) : Reads (pure a) e ts a ts :=
  .inl rfl

/-- What follows a parser that reads a value goes on behind it. -/
theorem Reads.bind_eq {p : Parser α} {f : α → Parser β} {a : α} (h : Reads p e ts a mid) :
    (p >>= f) e ts = f a e mid ∨ (p >>= f) e ts = .spent := by
  rw [bind_apply]
  rcases h with h | h
  · rw [h]
    exact .inl rfl
  · rw [h]
    exact .inr rfl

theorem Reads.bind {p : Parser α} {f : α → Parser β} {a : α} {b : β} (h : Reads p e ts a mid)
    (h' : Reads (f a) e mid b rest) : Reads (p >>= f) e ts b rest := by
  unfold Reads
  rcases h.bind_eq with hf | hspent
  · rw [hf]
    exact h'
  · exact .inr hspent

/-- The parser comes to a loop, which is given some number of steps and goes on with `rest`. -/
def ComesTo (p : Parser α) (e : Nat) (ts : List Token) (loop : Nat → Parser α)
    (rest : List Token) : Prop :=
  ∃ m, p e ts = loop m e rest

theorem ComesTo.trans {p : Parser α} {loop loop' : Nat → Parser α} (h : ComesTo p e ts loop mid)
    (h' : ∀ m, ComesTo (loop m) e mid loop' rest) : ComesTo p e ts loop' rest := by
  obtain ⟨m, hm⟩ := h
  obtain ⟨m', hm'⟩ := h' m
  exact ⟨m', hm.trans hm'⟩

theorem ComesTo.reads {p : Parser α} {loop : Nat → Parser α} {a : α} (h : ComesTo p e ts loop mid)
    (h' : ∀ m, Reads (loop m) e mid a rest) : Reads p e ts a rest := by
  obtain ⟨m, hm⟩ := h
  unfold Reads
  rw [hm]
  exact h' m

/-- A loop without steps says so, so that the steps of what stands in front of it do not matter. -/
theorem Reads.comesTo {p : Parser α} {f : α → Parser β} {a : α} {loop : Nat → Parser β}
    (hloop : loop 0 = spent) (h : Reads p e ts a mid) (h' : ComesTo (f a) e mid loop rest) :
    ComesTo (p >>= f) e ts loop rest := by
  rcases h.bind_eq with hf | hspent
  · obtain ⟨m, hm⟩ := h'
    exact ⟨m, hf.trans hm⟩
  · refine ⟨0, hspent.trans ?_⟩
    rw [hloop]
    rfl

theorem reads_expect {m : Mark} (place : Place) (ht : t.is m = true) :
    Reads (expect m place) e (t :: ts) t ts := by
  left
  simp only [expect, ht, if_true]

theorem reads_identifier (place : Place) (ht : t.IsName) :
    Reads (identifier place) e (t :: ts) t ts := by
  obtain ⟨name, hname⟩ := ht
  left
  simp only [identifier, hname]

theorem reads_ty? {a : Ty} (ht : t.is (.ty a) = true) : Reads ty? e (t :: ts) (some a) ts := by
  left
  simp only [ty?, Token.is_iff.mp ht, Kind.ty?, Mark.ty?]

theorem reads_ty {a : Ty} (ht : t.is (.ty a) = true) : Reads ty e (t :: ts) a ts :=
  (reads_ty? ht).bind (reads_pure a)

theorem reads_skip : Reads skip e (t :: ts) () ts :=
  .inl rfl

theorem reads_peek : Reads peek e ts ts.head? ts :=
  .inl rfl

theorem reads_take {marks : List Mark} (ht : marks.any t.is = true) :
    Reads (take? marks) e (t :: ts) (some t) ts := by
  left
  simp only [take?, ht, if_true]

theorem reads_takeMark {m : Mark} (ht : t.is m = true) :
    Reads (take? [m]) e (t :: ts) (some t) ts :=
  reads_take (by simpa using ht)

/-- The next token is none of some marks. -/
def NoneNext (marks : List Mark) (ts : List Token) : Prop :=
  ∀ t ∈ ts.head?, marks.any t.is = false

theorem NoneNext.is_eq_false {marks : List Mark} (h : NoneNext marks (t :: ts)) {m : Mark}
    (hm : m ∈ marks) : t.is m = false := by
  have hnone := h t rfl
  rw [List.any_eq_false] at hnone
  exact Bool.eq_false_iff.mpr (hnone m hm)

theorem NoneNext.mono {marks marks' : List Mark} (h : NoneNext marks ts)
    (hsub : ∀ m ∈ marks', m ∈ marks) : NoneNext marks' ts := by
  intro t ht
  have hnone := h t ht
  rw [List.any_eq_false] at hnone ⊢
  exact fun m hm => hnone m (hsub m hm)

theorem noneNext_cons {marks : List Mark} (h : ∀ m ∈ marks, t.is m = false) :
    NoneNext marks (t :: ts) := by
  intro u hu
  cases hu
  rw [List.any_eq_false]
  exact fun m hm => Bool.eq_false_iff.mp (h m hm)

theorem reads_takeNone {marks : List Mark} (h : NoneNext marks ts) :
    Reads (take? marks) e ts none ts := by
  left
  cases ts with
  | nil => rfl
  | cons t ts' => simp [take?, h t rfl]

/-- The next token is a mark. -/
def Next (m : Mark) (ts : List Token) : Prop :=
  ∃ t ts', ts = t :: ts' ∧ t.is m = true

theorem next_cons {m : Mark} (ht : t.is m = true) : Next m (t :: ts) :=
  ⟨t, ts, rfl, ht⟩

/-- The next token is no other mark than the one that it is. -/
theorem Next.noneNext {m : Mark} (h : Next m ts) {marks : List Mark} (hm : m ∉ marks) :
    NoneNext marks ts := by
  obtain ⟨t, ts', rfl, ht⟩ := h
  refine noneNext_cons fun m' hm' => Token.is_eq_false_of_is ht ?_
  rintro rfl
  exact hm hm'

theorem Next.nextBinding {m : Mark} (h : Next m ts) : Grammar.nextBinding ts = m.binding := by
  obtain ⟨t, ts', rfl, ht⟩ := h
  exact Token.binding_of_is ht

theorem reads_unlessNext {m : Mark} {a b : α} {p : Parser α} (hnone : NoneNext [m] ts)
    (h : Reads p e ts b rest) : Reads (unlessNext m a p) e ts b rest := by
  have hother : ts.head?.any (Token.is m) = false := by
    cases ts with
    | nil => rfl
    | cons t ts' => exact hnone.is_eq_false (List.mem_singleton_self m)
  unfold Reads unlessNext
  rw [hother]
  exact h

theorem reads_unlessNext_next {m : Mark} {a : α} {p : Parser α} (h : Next m ts) :
    Reads (unlessNext m a p) e ts a ts := by
  obtain ⟨t, ts', rfl, ht⟩ := h
  left
  simp only [unlessNext, List.head?_cons, Option.any_some, ht, if_true]

end Parser

namespace Grammar

open Sugod.Parser

variable {n m e : Nat} {ts mid rest : List Token}

/-! ## What the parsers do with written phrases -/

/-- What the parser of a rank does with tokens that begin with a phrase of that rank and go on with
`rest`. -/
def ExprPhrase.Read : ExprPhrase → List Token → List Token → Prop
  | .expr .assignment x, ts, rest =>
    nextBinding rest = 0 → ∀ n e, Reads (assignment n) e ts x rest
  | .expr (.level l) x, ts, rest =>
    nextBinding rest ≤ l.binding → ∀ n e, ComesTo (level n l) e ts (chain · l x) rest
  | .expr .unary x, ts, rest =>
    nextBinding rest ≤ 7 → ∀ n e, Reads (unary n) e ts x rest
  -- Tighter than the unary operators, an expression does not begin with one of them.
  | .expr .call x, ts, rest =>
    NoneNext [.bang, .minus, .plus] ts ∧
      ∀ n e, ComesTo (primary n >>= calls n) e ts (calls · x) rest
  | .expr .primary x, ts, rest =>
    NoneNext [.bang, .minus, .plus] ts ∧ ∀ n e, Reads (primary n) e ts x rest
  | .arguments xs, ts, rest =>
    Next .rightParen rest → ∀ n e count, count + xs.length ≤ 255 →
      Reads (Grammar.arguments n count) e ts xs rest

/-- Where no operator of a level is next, none is taken. -/
theorem noneNext_marks {l : Level} (h : nextBinding rest ≠ l.binding) :
    NoneNext l.marks rest := by
  intro t ht
  rw [Bool.eq_false_iff, ne_eq, l.any_marks_iff]
  cases rest with
  | nil => cases ht
  | cons t' ts' =>
    cases ht
    exact h

theorem noneNext_equal (h : nextBinding rest ≠ 1) : NoneNext [.equal] rest := by
  cases rest with
  | nil => exact fun t ht => nomatch ht
  | cons t ts' =>
    refine noneNext_cons fun m hm => ?_
    rw [List.mem_singleton.mp hm, Bool.eq_false_iff, ne_eq, Token.is_equal_iff]
    exact h

theorem noneNext_leftParen (h : nextBinding rest ≠ 8) : NoneNext [.leftParen] rest := by
  cases rest with
  | nil => exact fun t ht => nomatch ht
  | cons t ts' =>
    refine noneNext_cons fun m hm => ?_
    rw [List.mem_singleton.mp hm, Bool.eq_false_iff, ne_eq, Token.is_leftParen_iff]
    exact h

theorem noneNext_of_atom {t : Token} {marks : List Mark} (h : t.IsName ∨ ∃ v, Literal t.kind v)
    (hoo : Mark.oo ∉ marks) (hdili : Mark.dili ∉ marks) : NoneNext marks (t :: rest) := by
  refine noneNext_cons fun m hm => Token.Begins.is_eq_false_of_atom h ⟨?_, ?_⟩ <;> rintro rfl
  · exact hoo hm
  · exact hdili hm

/-! ## Levels of operators -/

variable {l : Level} {x left right : Expr} {op : Token}

/-- The loop of a level ends where no operator of the level is next. -/
theorem chain_reads (h : nextBinding rest < l.binding) : Reads (chain n l x) e rest x rest := by
  cases n with
  | zero => exact reads_spent x
  | succ n =>
    rw [chain]
    exact (reads_takeNone (noneNext_marks (Nat.ne_of_lt h))).bind (reads_pure x)

theorem level_reads (h : ExprPhrase.Read (.expr (.level l) x) ts rest)
    (hnext : nextBinding rest < l.binding) (n e : Nat) : Reads (level n l) e ts x rest :=
  (h (Nat.le_of_lt hnext) n e).reads fun _ => chain_reads hnext

theorem operand_reads (h : ExprPhrase.Read (.expr (operandRank l) x) ts rest)
    (hnext : nextBinding rest ≤ l.binding) (n e : Nat) : Reads (operand n l) e ts x rest := by
  cases n with
  | zero => exact reads_spent x
  | succ n =>
    unfold operandRank at h
    rw [operand]
    cases hl : l.tighter? with
    | some l' =>
      rw [hl] at h
      have htighter := binding_of_tighter hl
      exact level_reads h (by omega) n e
    | none =>
      rw [hl] at h
      have htightest := binding_of_tightest hl
      exact h (by omega) n e

/-- An operand is read as an expression of the level: the loop is still to come. -/
theorem read_operand (h : ExprPhrase.Read (.expr (operandRank l) x) ts rest) :
    ExprPhrase.Read (.expr (.level l) x) ts rest := by
  intro hnext n e
  cases n with
  | zero => exact ⟨0, rfl⟩
  | succ n =>
    rw [level]
    exact (operand_reads h hnext n e).comesTo rfl ⟨n, rfl⟩

/-- With an operator and an operand behind an expression of the level, the loop goes round once. -/
theorem read_operator (hleft : ExprPhrase.Read (.expr (.level l) left) ts (op :: mid))
    (hop : op.binding = l.binding)
    (hright : ExprPhrase.Read (.expr (operandRank l) right) mid rest) :
    ExprPhrase.Read (.expr (.level l) (l.node left op right)) ts rest := by
  intro hnext n e
  refine (hleft (Nat.le_of_eq hop) n e).trans fun m => ?_
  cases m with
  | zero => exact ⟨0, rfl⟩
  | succ m =>
    simp only [chain]
    refine (reads_take ((l.any_marks_iff op).mpr hop)).comesTo rfl ?_
    exact (operand_reads hright hnext m e).comesTo rfl ⟨m, rfl⟩

/-! ## Unary operators and calls -/

theorem read_signed (hop : op.is .bang ∨ op.is .minus ∨ op.is .plus)
    (h : ExprPhrase.Read (.expr .unary x) ts rest) :
    ExprPhrase.Read (.expr .unary (.unary op x)) (op :: ts) rest := by
  intro hnext n e
  cases n with
  | zero => exact reads_spent _
  | succ n =>
    rw [unary]
    have hany : [Mark.bang, .minus, .plus].any op.is = true := by simpa using hop
    exact (reads_take hany).bind ((h hnext n e).bind (reads_pure _))

/-- The loop of calls ends where no parenthesis is next. -/
theorem calls_reads (h : nextBinding rest ≤ 7) : Reads (calls n x) e rest x rest := by
  cases n with
  | zero => exact reads_spent x
  | succ n =>
    rw [calls]
    exact (reads_takeNone (noneNext_leftParen (by omega))).bind (reads_pure x)

theorem read_unsigned (h : ExprPhrase.Read (.expr .call x) ts rest) :
    ExprPhrase.Read (.expr .unary x) ts rest := by
  obtain ⟨hsign, hcalls⟩ := h
  intro hnext n e
  cases n with
  | zero => exact reads_spent x
  | succ n =>
    rw [unary]
    exact (reads_takeNone hsign).bind ((hcalls n e).reads fun _ => calls_reads hnext)

theorem read_uncalled (h : ExprPhrase.Read (.expr .primary x) ts rest) :
    ExprPhrase.Read (.expr .call x) ts rest := by
  obtain ⟨hsign, hprimary⟩ := h
  exact ⟨hsign, fun n e => (hprimary n e).comesTo rfl ⟨n, rfl⟩⟩

/-- With an argument list behind what is called, the loop goes round once. -/
theorem read_call {callee : Expr} {paren paren' : Token} {args : List Expr}
    (hcallee : ExprPhrase.Read (.expr .call callee) ts (paren :: mid))
    (hparen : paren.is .leftParen = true)
    (hargs : ∀ n e, Reads (unlessNext .rightParen [] (arguments n 0)) e mid args (paren' :: rest))
    (hparen' : paren'.is .rightParen = true) :
    ExprPhrase.Read (.expr .call (.call callee paren' args)) ts rest := by
  obtain ⟨hsign, hcalls⟩ := hcallee
  refine ⟨hsign, fun n e => (hcalls n e).trans fun m => ?_⟩
  cases m with
  | zero => exact ⟨0, rfl⟩
  | succ m =>
    simp only [calls]
    refine (reads_takeMark hparen).comesTo rfl ((hargs m e).comesTo rfl ?_)
    exact (reads_expect _ hparen').comesTo rfl ⟨m, rfl⟩

theorem read_lastArgument (h : ExprPhrase.Read (.expr .assignment x) ts rest) :
    ExprPhrase.Read (.arguments [x]) ts rest := by
  intro hnext n e count hfew
  cases n with
  | zero => exact reads_spent _
  | succ n =>
    have hroom : ¬maxArity ≤ count := Nat.not_le_of_lt hfew
    rw [arguments, if_neg hroom]
    refine (h hnext.nextBinding n e).bind ?_
    exact (reads_takeNone (hnext.noneNext (by decide))).bind (reads_pure _)

theorem read_argument {comma : Token} {xs : List Expr}
    (h : ExprPhrase.Read (.expr .assignment x) ts (comma :: mid)) (hcomma : comma.is .comma = true)
    (hmore : ExprPhrase.Read (.arguments xs) mid rest) :
    ExprPhrase.Read (.arguments (x :: xs)) ts rest := by
  intro hnext n e count hfew
  rw [List.length_cons] at hfew
  cases n with
  | zero => exact reads_spent _
  | succ n =>
    have hroom : ¬maxArity ≤ count := by
      unfold maxArity
      omega
    rw [arguments, if_neg hroom]
    refine (h (next_cons hcomma).nextBinding n e).bind ((reads_takeMark hcomma).bind ?_)
    exact (hmore hnext n e (count + 1) (by omega)).bind (reads_pure _)

/-! ## The tightest expressions -/

theorem literal?_of_literal {k : Kind} {v : Value} (h : Literal k v) : literal? k = some v := by
  cases h <;> rfl

/-- A token that is an expression by itself is read. -/
theorem read_atom {t : Token} (hsign : NoneNext [.bang, .minus, .plus] (t :: rest))
    (h : atom? t = some x) : ExprPhrase.Read (.expr .primary x) (t :: rest) rest := by
  refine ⟨hsign, fun n e => ?_⟩
  cases n with
  | zero => exact reads_spent x
  | succ n =>
    rw [primary]
    refine reads_peek.bind ?_
    simp only [List.head?_cons, h]
    exact reads_skip.bind (reads_pure x)

theorem read_literal {t : Token} {v : Value} (h : Literal t.kind v) :
    ExprPhrase.Read (.expr .primary (.literal v t.line)) (t :: rest) rest := by
  refine read_atom (noneNext_of_atom (.inr ⟨v, h⟩) (by decide) (by decide)) ?_
  have hvalue := literal?_of_literal h
  generalize hk : t.kind = k at h hvalue
  unfold atom?
  rw [hk]
  cases h <;> simp [hvalue]

theorem read_var {name : Token} (h : name.IsName) :
    ExprPhrase.Read (.expr .primary (.var name)) (name :: rest) rest := by
  refine read_atom (noneNext_of_atom (.inl h) (by decide) (by decide)) ?_
  obtain ⟨text, htext⟩ := h
  simp only [atom?, htext]

theorem read_grouping {paren paren' : Token} (hparen : paren.is .leftParen = true)
    (h : ExprPhrase.Read (.expr .assignment x) ts (paren' :: rest))
    (hparen' : paren'.is .rightParen = true) :
    ExprPhrase.Read (.expr .primary (.grouping x)) (paren :: ts) rest := by
  refine ⟨(next_cons hparen).noneNext (by decide), fun n e => ?_⟩
  cases n with
  | zero => exact reads_spent _
  | succ n =>
    have hatom : atom? paren = none := by
      simp only [atom?, Token.is_iff.mp hparen, literal?, Option.map_none]
    rw [primary]
    refine reads_peek.bind ?_
    simp only [List.head?_cons, hatom, hparen, if_true]
    refine reads_skip.bind ((h (next_cons hparen').nextBinding n e).bind ?_)
    exact (reads_expect _ hparen').bind (reads_pure _)

/-! ## Assignments -/

theorem read_unassigned (h : ExprPhrase.Read (.expr (.level .or) x) ts rest) :
    ExprPhrase.Read (.expr .assignment x) ts rest := by
  intro hnext n e
  cases n with
  | zero => exact reads_spent x
  | succ n =>
    have hlt : nextBinding rest < Level.or.binding := by
      rw [hnext]
      decide
    rw [assignment]
    refine (level_reads h hlt n e).bind ?_
    exact (reads_takeNone (noneNext_equal (by omega))).bind (reads_pure x)

theorem read_or_of_primary (h : ExprPhrase.Read (.expr .primary x) ts rest) :
    ExprPhrase.Read (.expr (.level .or) x) ts rest := by
  have hfactor : ExprPhrase.Read (.expr (.level .factor) x) ts rest :=
    read_operand (read_unsigned (read_uncalled h))
  have hcomparison : ExprPhrase.Read (.expr (.level .comparison) x) ts rest :=
    read_operand (read_operand hfactor)
  exact read_operand (read_operand (read_operand hcomparison))

theorem read_assign {name equals : Token} (hname : name.IsName) (hequals : equals.is .equal = true)
    (h : ExprPhrase.Read (.expr .assignment x) ts rest) :
    ExprPhrase.Read (.expr .assignment (.assign name x)) (name :: equals :: ts) rest := by
  intro hnext n e
  cases n with
  | zero => exact reads_spent _
  | succ n =>
    -- What stands on the left is read as an expression of operators, which ends at the equals sign.
    have hleft : ExprPhrase.Read (.expr (.level .or) (.var name)) (name :: equals :: ts)
        (equals :: ts) := read_or_of_primary (read_var hname)
    have hlt : nextBinding (equals :: ts) < Level.or.binding := by
      rw [(next_cons hequals).nextBinding]
      decide
    rw [assignment]
    refine (level_reads hleft hlt n e).bind ((reads_takeMark hequals).bind ?_)
    exact (h hnext n e).bind (reads_pure _)

/-! ## All expressions -/

/-- Arguments do not begin with the parenthesis behind them. -/
theorem ExprPhrase.Derives.noneNext_rightParen {xs : List Expr}
    (h : ExprPhrase.Derives (.arguments xs) ts rest) : NoneNext [.rightParen] ts := by
  obtain ⟨t, ts', x, rfl, hbegins⟩ := h.starts
  refine noneNext_cons fun m hm => hbegins.is_eq_false ?_
  rw [List.mem_singleton.mp hm]
  decide

/-- **Every written expression is read back.** -/
theorem ExprPhrase.Derives.read {phrase : ExprPhrase} (h : phrase.Derives ts rest) :
    phrase.Read ts rest := by
  induction h with
  | assign hname hequals _ ih => exact read_assign hname hequals ih
  | unassigned _ ih => exact read_unassigned ih
  | operator row _ hop _ ih ih' =>
    rw [row.node_eq]
    rw [row.next_eq] at ih'
    exact read_operator ih ((row.any_iff _).mp hop) ih'
  | operand row _ ih =>
    rw [row.next_eq] at ih
    exact read_operand ih
  | signed hop _ ih => exact read_signed hop ih
  | unsigned _ ih => exact read_unsigned ih
  | call _ hleft hargs hparen few ih ih' =>
    refine read_call ih hleft (fun n e => ?_) hparen
    exact reads_unlessNext hargs.noneNext_rightParen (ih' (next_cons hparen) n e 0 (by omega))
  | callEmpty _ hleft hparen ih =>
    exact read_call ih hleft (fun n e => reads_unlessNext_next (next_cons hparen)) hparen
  | uncalled _ ih => exact read_uncalled ih
  | lastArgument _ ih => exact read_lastArgument ih
  | argument _ hcomma _ ih ih' => exact read_argument ih hcomma ih'
  | literal hv => exact read_literal hv
  | var hname => exact read_var hname
  | grouping hleft _ hright ih => exact read_grouping hleft ih hright

end Grammar

end Sugod
