import Sugod.Proofs.Derivation
import Mathlib.Tactic.Common

/-!
# What stands at the borders of phrases

A parser has to decide from the next token whether an expression goes on. This module says what that
token tells. Every token has a *binding*: how tightly it ties an expression in front of it to what
comes behind, and 0 if it cannot. An expression of a level of operators goes on exactly if the next
token binds at least as tightly as the operators of that level.

On the other side, `Token.Begins` says which tokens an expression can begin with. Among these,
parentheses and signs are the only ones that bind (`Token.Begins.binding_cases`), so these are the
only statements that can be mistaken for the continuation of an expression in front of them.
-/

set_option autoImplicit false

namespace Sugod

/-! ## Bindings -/

/-- How tightly a mark ties what stands in front of it to what stands behind. -/
def Mark.binding : Mark → Nat
  | .leftParen => 8
  | .star | .slash | .percent => 7
  | .plus | .minus | .ampersand => 6
  | .greater | .greaterEqual | .less | .lessEqual => 5
  | .equalEqual | .notEqual => 4
  | .ug => 3
  | .o => 2
  | .equal => 1
  | _ => 0

/-- How tightly a token ties what stands in front of it to what stands behind. -/
def Token.binding (t : Token) : Nat :=
  match t.kind with
  | .mark m => m.binding
  | _ => 0

/-- How tightly the operators of a level bind. -/
def Level.binding : Level → Nat
  | or => 2
  | and => 3
  | equality => 4
  | comparison => 5
  | term => 6
  | factor => 7

namespace Token

theorem is_iff {t : Token} {m : Mark} : t.is m = true ↔ t.kind = .mark m :=
  Kind.is_iff

/-- A token is one mark only. -/
theorem is_eq_false_of_is {t : Token} {m m' : Mark} (h : t.is m = true) (hne : m ≠ m') :
    t.is m' = false := by
  rw [Bool.eq_false_iff]
  intro h'
  rw [is_iff] at h h'
  exact hne (Kind.mark.inj (h.symm.trans h'))

theorem binding_of_is {t : Token} {m : Mark} (h : t.is m = true) : t.binding = m.binding := by
  simp only [binding, is_iff.mp h]

theorem any_is_iff {marks : List Mark} {t : Token} :
    marks.any t.is = true ↔ ∃ m ∈ marks, t.kind = .mark m := by
  simp only [List.any_eq_true, is_iff]

/-- A token that binds is a mark. -/
theorem kind_of_binding_pos {t : Token} (h : 0 < t.binding) :
    ∃ m, t.kind = .mark m ∧ t.binding = m.binding := by
  unfold binding at h ⊢
  cases hk : t.kind with
  | mark m => exact ⟨m, rfl, rfl⟩
  | _ => simp [hk] at h

theorem binding_le (t : Token) : t.binding ≤ 8 := by
  unfold binding
  cases t.kind with
  | mark m => cases m <;> simp [Mark.binding]
  | _ => exact Nat.zero_le 8

theorem is_equal_iff {t : Token} : t.is .equal = true ↔ t.binding = 1 := by
  refine ⟨binding_of_is, fun h => ?_⟩
  obtain ⟨m, hkind, hm⟩ := kind_of_binding_pos (by rw [h]; exact Nat.one_pos)
  rw [h] at hm
  rw [is_iff, hkind]
  cases m <;> first | rfl | cases hm

theorem is_leftParen_iff {t : Token} : t.is .leftParen = true ↔ t.binding = 8 := by
  refine ⟨binding_of_is, fun h => ?_⟩
  obtain ⟨m, hkind, hm⟩ := kind_of_binding_pos (by rw [h]; decide)
  rw [h] at hm
  rw [is_iff, hkind]
  cases m <;> first | rfl | cases hm

end Token

namespace Level

theorem binding_bounds (l : Level) : 2 ≤ l.binding ∧ l.binding ≤ 7 := by
  cases l <;> decide

theorem mem_marks_iff (l : Level) (m : Mark) : m ∈ l.marks ↔ m.binding = l.binding := by
  cases l <;> cases m <;> simp [marks, Mark.binding, binding]

/-- The operators of a level are the tokens with its binding. -/
theorem any_marks_iff (l : Level) (t : Token) :
    l.marks.any t.is = true ↔ t.binding = l.binding := by
  rw [Token.any_is_iff]
  constructor
  · rintro ⟨m, hm, hkind⟩
    rw [Token.binding_of_is (Token.is_iff.mpr hkind)]
    exact (l.mem_marks_iff m).mp hm
  · intro h
    have hpos : 0 < t.binding := by
      have := l.binding_bounds
      omega
    obtain ⟨m, hkind, hm⟩ := Token.kind_of_binding_pos hpos
    exact ⟨m, (l.mem_marks_iff m).mpr (hm.symm.trans h), hkind⟩

end Level

namespace Grammar

/-- How tightly the next token binds. -/
def nextBinding : List Token → Nat
  | [] => 0
  | t :: _ => t.binding

@[simp] theorem nextBinding_cons (t : Token) (ts : List Token) :
    nextBinding (t :: ts) = t.binding := rfl

/-- The rank of the operands of a level. -/
def operandRank (l : Level) : Rank :=
  match l.tighter? with
  | some l' => .level l'
  | none => .unary

theorem binding_of_tighter {l l' : Level} (h : l.tighter? = some l') :
    l'.binding = l.binding + 1 := by
  revert h
  cases l <;> cases l' <;> decide

theorem binding_of_tightest {l : Level} (h : l.tighter? = none) : l.binding = 7 := by
  revert h
  cases l <;> decide

namespace Operators

variable {l : Level} {marks : List Mark} {next : Rank} {node : Expr → Token → Expr → Expr}

theorem node_eq (row : Operators l marks next node) : node = l.node := by
  cases row <;> rfl

theorem next_eq (row : Operators l marks next node) : next = operandRank l := by
  cases row <;> rfl

theorem any_iff (row : Operators l marks next node) (t : Token) :
    marks.any t.is = true ↔ t.binding = l.binding := by
  rw [← l.any_marks_iff, Token.any_is_iff, Token.any_is_iff]
  -- The productions list the operators of a level in another order than the parser tries them.
  have hmem : ∀ m, m ∈ marks ↔ m ∈ l.marks := by
    intro m
    cases row <;> simp only [Level.marks, List.mem_cons] <;> tauto
  simp only [hmem]

/-- Every level has a production. -/
theorem ofLevel (l : Level) : ∃ marks, Operators l marks (operandRank l) l.node := by
  cases l
  · exact ⟨_, .or⟩
  · exact ⟨_, .and⟩
  · exact ⟨_, .equality⟩
  · exact ⟨_, .comparison⟩
  · exact ⟨_, .term⟩
  · exact ⟨_, .factor⟩

end Operators

/-! ## First tokens -/

end Grammar

/-- The token can be the first one of an expression: a name or a literal, or the mark that the
expression begins with. -/
def Token.Begins (t : Token) (e : Expr) : Prop :=
  (e.leading? = none ∧ (t.IsName ∨ ∃ v, Grammar.Literal t.kind v)) ∨
    ∃ m, e.leading? = some m ∧ t.kind = .mark m ∧
      (m = .leftParen ∨ m = .bang ∨ m = .minus ∨ m = .plus)

namespace Token.Begins

variable {t : Token} {e : Expr}

theorem binding_eq_zero_of_atom (h : t.IsName ∨ ∃ v, Grammar.Literal t.kind v) :
    t.binding = 0 := by
  unfold Token.binding
  rcases h with ⟨name, hname⟩ | ⟨v, hv⟩
  · rw [hname]
  · generalize t.kind = kind at hv
    cases hv <;> rfl

/-- The first token of an expression binds, as a call or as an operator, exactly if the expression
can be read as the continuation of another one. -/
theorem binding_cases (h : t.Begins e) :
    (e.continues = false ∧ t.binding = 0) ∨ (e.continues = true ∧ 1 < t.binding) := by
  unfold Expr.continues
  rcases h with ⟨hnone, hatom⟩ | ⟨m, hlead, hkind, hm⟩
  · simp [hnone, binding_eq_zero_of_atom hatom]
  · rw [hlead, Token.binding_of_is (Token.is_iff.mpr hkind)]
    rcases hm with rfl | rfl | rfl | rfl <;> simp [Mark.binding]

/-- A name or a literal is no other mark than the two words for truth values. -/
theorem is_eq_false_of_atom (h : t.IsName ∨ ∃ v, Grammar.Literal t.kind v) {m : Mark}
    (hm : m ≠ .oo ∧ m ≠ .dili) : t.is m = false := by
  rw [Bool.eq_false_iff]
  intro his
  rw [Token.is_iff] at his
  rcases h with ⟨name, hname⟩ | ⟨v, hv⟩
  · rw [his] at hname
    cases hname
  · rw [his] at hv
    cases hv with
    | oo => exact hm.1 rfl
    | dili => exact hm.2 rfl

/-- The marks that no expression begins with. -/
theorem is_eq_false (h : t.Begins e) {m : Mark}
    (hm : m ∉ [Mark.leftParen, .bang, .minus, .plus, .oo, .dili]) : t.is m = false := by
  rcases h with ⟨-, hatom⟩ | ⟨k, -, hkind, hk⟩
  · refine is_eq_false_of_atom hatom ⟨?_, ?_⟩ <;> rintro rfl <;> simp at hm
  · rw [Bool.eq_false_iff]
    intro his
    rw [Token.is_iff, hkind] at his
    cases his
    rcases hk with rfl | rfl | rfl | rfl <;> simp at hm

/-- No expression begins at the end of the input. -/
theorem isEof_eq_false (h : t.Begins e) : t.kind.isEof = false := by
  rcases h with ⟨-, ⟨name, hname⟩ | ⟨v, hv⟩⟩ | ⟨m, -, hkind, -⟩
  · rw [hname]
    rfl
  · generalize t.kind = kind at hv
    cases hv <;> rfl
  · rw [hkind]
    rfl

end Token.Begins

namespace Grammar

/-- A phrase of the grammar of expressions begins with a token that an expression can begin with. -/
def ExprPhrase.Starts : ExprPhrase → List Token → Prop
  | .expr _ e, ts => ∃ t ts', ts = t :: ts' ∧ t.Begins e
  | .arguments _, ts => ∃ t ts' e, ts = t :: ts' ∧ t.Begins e

theorem leading?_node {l : Level} (left right : Expr) (op : Token) :
    (l.node left op right).leading? = left.leading? := by
  cases l <;> rfl

theorem ExprPhrase.Derives.starts {phrase : ExprPhrase} {ts rest : List Token}
    (h : phrase.Derives ts rest) : phrase.Starts ts := by
  induction h with
  | assign hname _ _ _ => exact ⟨_, _, rfl, .inl ⟨rfl, .inl hname⟩⟩
  | unassigned _ ih => exact ih
  | operator row _ _ _ ih _ =>
    obtain ⟨t, ts', rfl, ht⟩ := ih
    refine ⟨t, ts', rfl, ?_⟩
    rw [row.node_eq]
    unfold Token.Begins
    rw [leading?_node]
    exact ht
  | operand _ _ ih => exact ih
  | @signed op e ts rest hop _ _ =>
    refine ⟨op, ts, rfl, .inr ?_⟩
    rcases hop with hop | hop | hop <;> rw [Token.is_iff] at hop <;>
      exact ⟨_, by simp only [Expr.leading?, hop], hop, by simp⟩
  | unsigned _ ih => exact ih
  | call _ _ _ _ _ ih _ => exact ih
  | callEmpty _ _ _ ih => exact ih
  | uncalled _ ih => exact ih
  | lastArgument _ ih =>
    obtain ⟨t, ts', rfl, ht⟩ := ih
    exact ⟨t, ts', _, rfl, ht⟩
  | argument _ _ _ ih _ =>
    obtain ⟨t, ts', rfl, ht⟩ := ih
    exact ⟨t, ts', _, rfl, ht⟩
  | literal hv => exact ⟨_, _, rfl, .inl ⟨rfl, .inr ⟨_, hv⟩⟩⟩
  | var hname => exact ⟨_, _, rfl, .inl ⟨rfl, .inl hname⟩⟩
  | grouping hleft _ _ _ =>
    exact ⟨_, _, rfl, .inr ⟨_, rfl, Token.is_iff.mp hleft, by simp⟩⟩

end Grammar

/-- The token can be the first one of a statement: a keyword, or the first one of an expression. -/
inductive Token.BeginsStmt (t : Token) : Stmt → Prop
  | keyword {m : Mark} {s : Stmt} (h : t.is m = true)
      (hm : m ∈ [Mark.ipakita, .dawat, .kung, .samtang, .alangSa, .pundok, .iuli])
      (hs : s.continues = false) : BeginsStmt t s
  | expr {e : Expr} (h : t.Begins e) : BeginsStmt t (.expr e)

namespace Token.BeginsStmt

variable {t : Token} {s : Stmt}

/-- The first token of a statement binds, as a call or as an operator, exactly if the statement can
be read as the continuation of an expression. -/
theorem binding_cases (h : t.BeginsStmt s) :
    (s.continues = false ∧ t.binding = 0) ∨ (s.continues = true ∧ 1 < t.binding) := by
  cases h with
  | keyword his hm hs =>
    refine .inl ⟨hs, ?_⟩
    rw [Token.binding_of_is his]
    simp only [List.mem_cons, List.not_mem_nil, or_false] at hm
    rcases hm with rfl | rfl | rfl | rfl | rfl | rfl | rfl <;> rfl
  | expr he => exact he.binding_cases

/-- The marks that no statement begins with. -/
theorem is_eq_false (h : t.BeginsStmt s) {m : Mark}
    (hm : m ∈ [Mark.rightBrace, .katapusan, .mugna, .pirmi, .comma, .kungDili, .kungWala]) :
    t.is m = false := by
  cases h with
  | keyword his hk _ =>
    refine Token.is_eq_false_of_is his ?_
    rintro rfl
    simp only [List.mem_cons, List.not_mem_nil, or_false] at hk hm
    rcases hk with rfl | rfl | rfl | rfl | rfl | rfl | rfl <;> simp at hm
  | expr he =>
    refine he.is_eq_false fun hexpr => ?_
    simp only [List.mem_cons, List.not_mem_nil, or_false] at hm hexpr
    rcases hm with rfl | rfl | rfl | rfl | rfl | rfl | rfl <;> simp at hexpr

/-- No statement begins at the end of the input. -/
theorem isEof_eq_false (h : t.BeginsStmt s) : t.kind.isEof = false := by
  cases h with
  | keyword his _ _ =>
    rw [Token.is_iff.mp his]
    rfl
  | expr he => exact he.isEof_eq_false

end Token.BeginsStmt

namespace Grammar

theorem Phrase.Derives.beginsStmt {inFn : Bool} {s : Stmt} {ts rest : List Token}
    (h : Phrase.Derives inFn (.statement s) ts rest) :
    ∃ t ts', ts = t :: ts' ∧ t.BeginsStmt s := by
  cases h with
  | display hkeyword => exact ⟨_, _, rfl, .keyword hkeyword (by simp) rfl⟩
  | accept hkeyword => exact ⟨_, _, rfl, .keyword hkeyword (by simp) rfl⟩
  | choose hkeyword => exact ⟨_, _, rfl, .keyword hkeyword (by simp) rfl⟩
  | chooseElse hkeyword => exact ⟨_, _, rfl, .keyword hkeyword (by simp) rfl⟩
  | whileLoop hkeyword => exact ⟨_, _, rfl, .keyword hkeyword (by simp) rfl⟩
  | forLoop hkeyword => exact ⟨_, _, rfl, .keyword hkeyword (by simp) rfl⟩
  | blockStatement hblock =>
    cases hblock with
    | block hkeyword => exact ⟨_, _, rfl, .keyword hkeyword (by simp) rfl⟩
  | bareRet _ hkeyword => exact ⟨_, _, rfl, .keyword hkeyword (by simp) rfl⟩
  | ret _ hkeyword => exact ⟨_, _, rfl, .keyword hkeyword (by simp) rfl⟩
  | expr he =>
    obtain ⟨t, ts', rfl, ht⟩ := he.starts
    exact ⟨t, ts', rfl, .expr ht⟩

/-! ## Declarations -/

/-- The word in front of a declaration is one of two and tells whether the variables are mutable. -/
theorem declaringWord_iff {mutable : Bool} {t : Token} :
    DeclaringWord mutable t ↔ [Mark.mugna, .pirmi].any t.is = true ∧ t.is .mugna = mutable := by
  unfold DeclaringWord
  constructor
  · intro h
    rw [Token.is_iff] at h
    cases mutable <;> simp [Token.is, h, Kind.is]
  · rintro ⟨hany, rfl⟩
    cases hm : t.is .mugna with
    | true => exact hm
    | false => simpa [hm] using hany

variable {ts rest : List Token}

theorem Declarations.eq_of_nil (h : Declarations [] ts rest) : rest = ts := by
  generalize hds : ([] : List Stmt) = ds at h
  cases h with
  | none => rfl
  | more _ _ hd _ => cases hd <;> cases hds

theorem Declarators.eq_declare {ty : Ty} {mutable : Bool} {ds : List Stmt}
    (h : Declarators ty mutable ds ts rest) :
    ∀ d ∈ ds, ∃ name init, d = .declare name ty init mutable := by
  have single : ∀ {d : Stmt} {ts rest : List Token}, Declarator ty mutable d ts rest →
      ∃ name init, d = .declare name ty init mutable := by
    intro d ts rest hd
    cases hd <;> exact ⟨_, _, rfl⟩
  induction h with
  | last hd =>
    intro d' hd'
    obtain rfl := List.mem_singleton.mp hd'
    exact single hd
  | more hd _ _ ih =>
    intro d' hd'
    rcases List.mem_cons.mp hd' with rfl | hmem
    · exact single hd
    · exact ih d' hmem

theorem Declarations.eq_declare {ds : List Stmt} (h : Declarations ds ts rest) :
    ∀ d ∈ ds, ∃ name ty init mutable, d = .declare name ty init mutable := by
  induction h with
  | none => exact fun d hd => nomatch hd
  | more _ _ hds _ ih =>
    intro d hd
    rcases List.mem_append.mp hd with hmem | hmem
    · obtain ⟨name, init, rfl⟩ := hds.eq_declare d hmem
      exact ⟨name, _, init, _, rfl⟩
    · exact ih d hmem

end Grammar

end Sugod
