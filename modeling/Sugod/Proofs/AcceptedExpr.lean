import Sugod.Grammar.Expression
import Sugod.Proofs.Follow

/-!
# Accepted expressions

Whatever the parsers of expressions accept is derived by the grammar, from exactly the tokens that
they took. Besides, they take as much as they can: behind an expression of a level there is no token
that would continue it. `Accepts` says both, by the number of steps.

The operators of a level and the calls behind a name are parsed in loops that are handed what stands
in front of them. Their statements extend any derivation of that.
-/

set_option autoImplicit false

namespace Sugod

namespace Parser

variable {α β : Type} {e : Nat} {ts rest : List Token}

/-! ## What a parser that succeeds has taken -/

theorem bind_eq_ok_iff {p : Parser α} {f : α → Parser β} {b : β} :
    (p >>= f) e ts = .ok b rest ↔ ∃ a mid, p e ts = .ok a mid ∧ f a e mid = .ok b rest := by
  rw [bind_apply]
  cases p e ts <;> simp

theorem of_pure_eq_ok {a b : α} (h : (pure a : Parser α) e ts = .ok b rest) :
    b = a ∧ rest = ts := by
  cases h
  exact ⟨rfl, rfl⟩

theorem of_expect_eq_ok {m : Mark} {place : Place} {t : Token}
    (h : expect m place e ts = .ok t rest) : ts = t :: rest ∧ t.is m = true := by
  unfold expect at h
  split at h
  · cases h
  · split at h
    · rename_i ht
      cases h
      exact ⟨rfl, ht⟩
    · cases h

theorem of_identifier_eq_ok {place : Place} {t : Token}
    (h : identifier place e ts = .ok t rest) : ts = t :: rest ∧ t.IsName := by
  unfold identifier at h
  split at h
  · cases h
  · split at h
    · rename_i name hkind
      cases h
      exact ⟨rfl, name, hkind⟩
    · cases h

theorem ty?_eq_some_iff {t : Token} {ty : Ty} : t.kind.ty? = some ty ↔ t.is (.ty ty) = true := by
  rw [Token.is_iff]
  constructor
  · intro h
    cases hk : t.kind with
    | mark m =>
      rw [hk] at h
      cases m <;> cases h
      rfl
    | _ =>
      rw [hk] at h
      cases h
  · intro h
    rw [h]
    rfl

theorem of_ty_eq_ok {a : Ty} (h : ty e ts = .ok a rest) :
    ∃ t, ts = t :: rest ∧ t.is (.ty a) = true := by
  simp only [ty, bind_eq_ok_iff] at h
  obtain ⟨o, mid, ho, h⟩ := h
  unfold ty? at ho
  split at ho
  · cases ho
    cases h
  · split at ho
    · rename_i hty
      cases ho
      cases h
      exact ⟨_, rfl, ty?_eq_some_iff.mp hty⟩
    · cases ho
      cases h

/-- Either the next token is none of the marks and stays, or it is one of them and is taken. -/
theorem of_take?_eq_ok {marks : List Mark} {o : Option Token}
    (h : take? marks e ts = .ok o rest) :
    (o = none ∧ rest = ts ∧ ∀ t ts', ts = t :: ts' → marks.any t.is = false) ∨
      ∃ t, o = some t ∧ ts = t :: rest ∧ marks.any t.is = true := by
  unfold take? at h
  split at h
  · cases h
    exact .inl ⟨rfl, rfl, fun t ts' hts => nomatch hts⟩
  · split at h
    · rename_i t rest' ht
      cases h
      exact .inr ⟨t, rfl, rfl, ht⟩
    · rename_i t rest' ht
      cases h
      refine .inl ⟨rfl, rfl, fun u ts' hts => ?_⟩
      cases hts
      exact Bool.eq_false_iff.mpr ht

/-- Either the next token is the mark and stays, or something was parsed. -/
theorem of_unlessNext_eq_ok {m : Mark} {a b : α} {p : Parser α}
    (h : unlessNext m a p e ts = .ok b rest) :
    (b = a ∧ rest = ts ∧ ∃ t ts', ts = t :: ts' ∧ t.is m = true) ∨ p e ts = .ok b rest := by
  unfold unlessNext at h
  split at h
  · rename_i hnext
    cases h
    obtain ⟨t, ht, his⟩ := (Option.any_eq_true _ _).mp hnext
    cases ts with
    | nil => cases ht
    | cons u ts' =>
      cases ht
      exact .inl ⟨rfl, rfl, t, ts', rfl, his⟩
  · exact .inr h

/-- Whatever the parser gives on some tokens has the property. -/
def Ensures (p : Parser α) (e : Nat) (ts : List Token) (P : α → List Token → Prop) : Prop :=
  ∀ a rest, p e ts = .ok a rest → P a rest

theorem ensures_peek {f : Option Token → Parser α} {P : α → List Token → Prop}
    (h : Ensures (f ts.head?) e ts P) : Ensures (peek >>= f) e ts P :=
  h

theorem ensures_skip {f : Unit → Parser α} {P : α → List Token → Prop} {t : Token}
    (h : Ensures (f ()) e ts P) : Ensures (skip >>= f) e (t :: ts) P :=
  h

theorem ensures_peekKind {f : Option Kind → Parser α} {P : α → List Token → Prop}
    (h : Ensures (f (ts.head?.map Token.kind)) e ts P) : Ensures (peekKind >>= f) e ts P :=
  h

end Parser

namespace Grammar

open Sugod.Parser

theorem any_singleton {m : Mark} {t : Token} : [m].any t.is = t.is m := by
  simp

theorem literal_of_literal? {k : Kind} {v : Value} (h : literal? k = some v) : Literal k v := by
  unfold literal? at h
  split at h <;> cases h <;> constructor

/-- A token that is an expression by itself is one of the tightest rank. -/
theorem derives_atom {t : Token} {x : Expr} {rest : List Token} (h : atom? t = some x) :
    ExprPhrase.Derives (.expr .primary x) (t :: rest) rest := by
  unfold atom? at h
  split at h
  · rename_i name hkind
    cases h
    exact .var ⟨name, hkind⟩
  · obtain ⟨v, hv, rfl⟩ := Option.map_eq_some_iff.mp h
    exact .literal (literal_of_literal? hv)

/-- An expression that is a name is written as that name. -/
theorem eq_cons_of_derives_var {phrase : ExprPhrase} {ts rest : List Token}
    (h : phrase.Derives ts rest) {r : Rank} {name : Token}
    (hphrase : phrase = .expr r (.var name)) : name.IsName ∧ ts = name :: rest := by
  induction h generalizing r with
  | unassigned _ ih | unsigned _ ih | uncalled _ ih =>
    cases hphrase
    exact ih rfl
  | operand _ _ ih =>
    cases hphrase
    exact ih rfl
  | operator row =>
    rw [row.node_eq] at hphrase
    rename_i l _ _ _ _ _ _ _ _ _ _ _ _ _ _
    cases l <;> cases hphrase
  | var hname =>
    cases hphrase
    exact ⟨hname, rfl⟩
  | _ => cases hphrase

/-- What the parsers of expressions accept, by the number of steps. -/
structure Accepts (n : Nat) : Prop where
  assignment : ∀ {e ts x rest}, assignment n e ts = .ok x rest →
    Expression x ts rest ∧ nextBinding rest = 0
  level : ∀ {l e ts x rest}, level n l e ts = .ok x rest →
    ExprPhrase.Derives (.expr (.level l) x) ts rest ∧ nextBinding rest < l.binding
  operand : ∀ {l e ts x rest}, operand n l e ts = .ok x rest →
    ExprPhrase.Derives (.expr (operandRank l) x) ts rest ∧ nextBinding rest ≤ l.binding
  chain : ∀ {l left e mid x rest}, chain n l left e mid = .ok x rest → nextBinding mid ≤ l.binding →
    ∀ {ts}, ExprPhrase.Derives (.expr (.level l) left) ts mid →
    ExprPhrase.Derives (.expr (.level l) x) ts rest ∧ nextBinding rest < l.binding
  unary : ∀ {e ts x rest}, unary n e ts = .ok x rest →
    ExprPhrase.Derives (.expr .unary x) ts rest ∧ nextBinding rest ≤ 7
  calls : ∀ {callee e mid x rest}, calls n callee e mid = .ok x rest →
    ∀ {ts}, ExprPhrase.Derives (.expr .call callee) ts mid →
    ExprPhrase.Derives (.expr .call x) ts rest ∧ nextBinding rest ≤ 7
  arguments : ∀ {count e ts xs rest}, arguments n count e ts = .ok xs rest →
    ExprPhrase.Derives (.arguments xs) ts rest ∧ count + xs.length ≤ 255
  primary : ∀ {e ts x rest}, primary n e ts = .ok x rest →
    ExprPhrase.Derives (.expr .primary x) ts rest

/-! ## One step of each parser -/

variable {n e : Nat} {ts rest : List Token}

theorem assignment_accepts (ih : Accepts n) {x : Expr}
    (h : assignment (n + 1) e ts = .ok x rest) : Expression x ts rest ∧ nextBinding rest = 0 := by
  simp only [Grammar.assignment, bind_eq_ok_iff] at h
  obtain ⟨left, mid, hleft, o, mid', ho, h⟩ := h
  obtain ⟨hor, hnext⟩ := ih.level hleft
  rcases of_take?_eq_ok ho with ⟨rfl, rfl, hnone⟩ | ⟨equals, rfl, rfl, hequals⟩
  · obtain ⟨rfl, rfl⟩ := of_pure_eq_ok h
    refine ⟨.unassigned hor, ?_⟩
    -- No operator is left, and no equals sign either.
    have hlt : nextBinding rest < 2 := hnext
    cases rest with
    | nil => rfl
    | cons t ts' =>
      have hne : t.is .equal = false := any_singleton ▸ hnone t ts' rfl
      rw [Bool.eq_false_iff, ne_eq, Token.is_equal_iff] at hne
      simp only [nextBinding_cons] at hlt ⊢
      omega
  · rw [any_singleton] at hequals
    obtain ⟨value, mid'', hvalue, h⟩ := bind_eq_ok_iff.mp h
    obtain ⟨hv, hend⟩ := ih.assignment hvalue
    unfold assignTo at h
    split at h
    · obtain ⟨rfl, rfl⟩ := of_pure_eq_ok h
      obtain ⟨hname, rfl⟩ := eq_cons_of_derives_var hor rfl
      exact ⟨.assign hname hequals hv, hend⟩
    · cases h

theorem operand_accepts (ih : Accepts n) {l : Level} {x : Expr}
    (h : operand (n + 1) l e ts = .ok x rest) :
    ExprPhrase.Derives (.expr (operandRank l) x) ts rest ∧ nextBinding rest ≤ l.binding := by
  rw [Grammar.operand] at h
  unfold operandRank
  cases hl : l.tighter? with
  | some l' =>
    rw [hl] at h
    obtain ⟨hx, hlt⟩ := ih.level h
    rw [binding_of_tighter hl] at hlt
    exact ⟨hx, Nat.le_of_lt_succ hlt⟩
  | none =>
    rw [hl] at h
    rw [binding_of_tightest hl]
    exact ih.unary h

theorem chain_accepts (ih : Accepts n) {l : Level} {left x : Expr} {mid : List Token}
    (h : chain (n + 1) l left e mid = .ok x rest) (hmid : nextBinding mid ≤ l.binding)
    (hleft : ExprPhrase.Derives (.expr (.level l) left) ts mid) :
    ExprPhrase.Derives (.expr (.level l) x) ts rest ∧ nextBinding rest < l.binding := by
  obtain ⟨marks, row⟩ := Operators.ofLevel l
  simp only [Grammar.chain, bind_eq_ok_iff] at h
  obtain ⟨o, mid', ho, h⟩ := h
  rcases of_take?_eq_ok ho with ⟨rfl, rfl, hnone⟩ | ⟨op, rfl, rfl, hop⟩
  · obtain ⟨rfl, rfl⟩ := of_pure_eq_ok h
    refine ⟨hleft, Nat.lt_of_le_of_ne hmid ?_⟩
    cases rest with
    | nil => exact Nat.ne_of_lt (Nat.lt_of_lt_of_le Nat.zero_lt_two l.binding_bounds.1)
    | cons t ts' =>
      have hne := hnone t ts' rfl
      rwa [Bool.eq_false_iff, ne_eq, l.any_marks_iff] at hne
  · obtain ⟨right, mid'', hright, h⟩ := bind_eq_ok_iff.mp h
    obtain ⟨hr, hnext⟩ := ih.operand hright
    refine ih.chain h hnext (.operator row hleft ?_ hr)
    exact (row.any_iff op).mpr ((l.any_marks_iff op).mp hop)

theorem level_accepts (ih : Accepts n) {l : Level} {x : Expr}
    (h : level (n + 1) l e ts = .ok x rest) :
    ExprPhrase.Derives (.expr (.level l) x) ts rest ∧ nextBinding rest < l.binding := by
  obtain ⟨marks, row⟩ := Operators.ofLevel l
  simp only [Grammar.level, bind_eq_ok_iff] at h
  obtain ⟨first, mid, hfirst, h⟩ := h
  obtain ⟨hf, hnext⟩ := ih.operand hfirst
  exact ih.chain h hnext (.operand row hf)

theorem unary_accepts (ih : Accepts n) {x : Expr} (h : unary (n + 1) e ts = .ok x rest) :
    ExprPhrase.Derives (.expr .unary x) ts rest ∧ nextBinding rest ≤ 7 := by
  simp only [Grammar.unary, bind_eq_ok_iff] at h
  obtain ⟨o, mid, ho, h⟩ := h
  rcases of_take?_eq_ok ho with ⟨rfl, rfl, -⟩ | ⟨op, rfl, rfl, hop⟩
  · obtain ⟨first, mid', hfirst, h⟩ := bind_eq_ok_iff.mp h
    obtain ⟨hx, hnext⟩ := ih.calls h (.uncalled (ih.primary hfirst))
    exact ⟨.unsigned hx, hnext⟩
  · obtain ⟨operand, mid', hoperand, h⟩ := bind_eq_ok_iff.mp h
    obtain ⟨rfl, rfl⟩ := of_pure_eq_ok h
    obtain ⟨hx, hnext⟩ := ih.unary hoperand
    refine ⟨.signed ?_ hx, hnext⟩
    simpa using hop

theorem calls_accepts (ih : Accepts n) {callee x : Expr} {mid : List Token}
    (h : calls (n + 1) callee e mid = .ok x rest)
    (hcallee : ExprPhrase.Derives (.expr .call callee) ts mid) :
    ExprPhrase.Derives (.expr .call x) ts rest ∧ nextBinding rest ≤ 7 := by
  simp only [Grammar.calls, bind_eq_ok_iff] at h
  obtain ⟨o, mid', ho, h⟩ := h
  rcases of_take?_eq_ok ho with ⟨rfl, rfl, hnone⟩ | ⟨left, rfl, rfl, hleft⟩
  · obtain ⟨rfl, rfl⟩ := of_pure_eq_ok h
    refine ⟨hcallee, ?_⟩
    cases rest with
    | nil => exact Nat.zero_le 7
    | cons t ts' =>
      have hne : t.is .leftParen = false := any_singleton ▸ hnone t ts' rfl
      rw [Bool.eq_false_iff, ne_eq, Token.is_leftParen_iff] at hne
      have hle := t.binding_le
      simp only [nextBinding_cons]
      omega
  · rw [any_singleton] at hleft
    simp only [bind_eq_ok_iff] at h
    obtain ⟨args, mid'', hargs, paren, mid₃, hexpect, h⟩ := h
    obtain ⟨rfl, hparen⟩ := of_expect_eq_ok hexpect
    refine ih.calls h ?_
    rcases of_unlessNext_eq_ok hargs with ⟨rfl, rfl, -⟩ | hargs
    · exact .callEmpty hcallee hleft hparen
    · obtain ⟨has, hfew⟩ := ih.arguments hargs
      exact .call hcallee hleft has hparen (by omega)

theorem arguments_accepts (ih : Accepts n) {count : Nat} {xs : List Expr}
    (h : arguments (n + 1) count e ts = .ok xs rest) :
    ExprPhrase.Derives (.arguments xs) ts rest ∧ count + xs.length ≤ 255 := by
  rw [Grammar.arguments] at h
  split at h
  · cases h
  · rename_i hcount
    have hroom : count < 255 := Nat.lt_of_not_le hcount
    simp only [bind_eq_ok_iff] at h
    obtain ⟨x, mid, hx, o, mid', ho, h⟩ := h
    have hx := (ih.assignment hx).1
    rcases of_take?_eq_ok ho with ⟨rfl, rfl, -⟩ | ⟨comma, rfl, rfl, hcomma⟩
    · obtain ⟨rfl, rfl⟩ := of_pure_eq_ok h
      exact ⟨.lastArgument hx, hroom⟩
    · rw [any_singleton] at hcomma
      obtain ⟨more, mid'', hmore, h⟩ := bind_eq_ok_iff.mp h
      obtain ⟨rfl, rfl⟩ := of_pure_eq_ok h
      obtain ⟨hm, hfew⟩ := ih.arguments hmore
      refine ⟨.argument hx hcomma hm, ?_⟩
      rw [List.length_cons]
      omega

theorem primary_accepts (ih : Accepts n) {x : Expr} (h : primary (n + 1) e ts = .ok x rest) :
    ExprPhrase.Derives (.expr .primary x) ts rest := by
  rw [Grammar.primary] at h
  cases ts with
  | nil => cases h
  | cons t ts' =>
    simp only [bind_apply, peek, List.head?_cons] at h
    cases hatom : atom? t with
    | some y =>
      simp only [hatom] at h
      cases h
      exact derives_atom hatom
    | none =>
      simp only [hatom] at h
      by_cases hleft : t.is .leftParen = true
      · simp only [hleft, if_true, bind_eq_ok_iff] at h
        obtain ⟨_, mid, hskip, inner, mid', hinner, right, mid'', hexpect, h⟩ := h
        cases hskip
        obtain ⟨rfl, rfl⟩ := of_pure_eq_ok h
        obtain ⟨rfl, hright⟩ := of_expect_eq_ok hexpect
        exact .grouping hleft (ih.assignment hinner).1 hright
      · simp only [hleft] at h
        cases h

/-- **What the parsers of expressions accept is derived by the grammar.** -/
theorem accepts (n : Nat) : Accepts n := by
  induction n with
  | zero =>
    constructor <;> intros
    case assignment h => cases h
    case level h => cases h
    case operand h => cases h
    case chain h _ _ _ => cases h
    case unary h => cases h
    case calls h _ _ => cases h
    case arguments h => cases h
    case primary h => cases h
  | succ n ih =>
    exact ⟨assignment_accepts ih, level_accepts ih, operand_accepts ih,
      fun h hmid _ hleft => chain_accepts ih h hmid hleft, unary_accepts ih,
      fun h _ hcallee => calls_accepts ih h hcallee, arguments_accepts ih, primary_accepts ih⟩

end Grammar

end Sugod
