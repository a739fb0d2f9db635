import Sugod.Proofs.EndOfInput
import Sugod.Proofs.Frame
import Sugod.Proofs.WrittenExpr

/-!
# Written programs

Writing a program and parsing it gives it back: on the tokens that a program is written out with,
the parser gives that program. The main statement is `written_parses`.

A list of statements has no separators, so a parser has to see from the next token that a statement
is over. `Stmt.Followed` is what it needs to see. It holds behind every statement of a list, because
the next one may follow it (`Stmt.MayPrecede`), or else because the closing mark of the list comes
next.
-/

set_option autoImplicit false

namespace Sugod

open Sugod.Parser (Next NoneNext next_cons)

/-- What comes behind a statement does not belong to it: no operator and no call behind an
expression, no value behind a return without one, no further name of a list, no initial value, and
no further part of a conditional. -/
structure Stmt.Followed (s : Stmt) (rest : List Token) : Prop where
  expr : s.endsWithExpr = true → Grammar.nextBinding rest = 0
  bare : s.isBareRet = true → Next .rightBrace rest
  equal : Grammar.nextBinding rest ≠ 1
  part : NoneNext [.comma, .kungDili, .kungWala] rest

namespace Stmt

variable {s s' : Stmt} {t : Token} {ts rest : List Token}

/-- A statement is followed by a statement that may follow it. -/
theorem followed_of_begins (h : s.MayPrecede s') (ht : t.BeginsStmt s') :
    s.Followed (t :: ts) where
  expr hexpr := by
    rcases ht.binding_cases with ⟨-, hzero⟩ | ⟨hcontinues, -⟩
    · exact hzero
    · rw [h.apart hexpr] at hcontinues
      cases hcontinues
  bare hbare := by
    rw [h.notBare] at hbare
    cases hbare
  equal := by
    show t.binding ≠ 1
    rcases ht.binding_cases with ⟨-, hzero⟩ | ⟨-, hlt⟩ <;> omega
  part := Parser.noneNext_cons fun m hm => ht.is_eq_false (by
    simp only [List.mem_cons, List.not_mem_nil, or_false] at hm ⊢
    tauto)

/-- A statement is followed by the end of its list or by a declaration. -/
theorem followed_of_next {m : Mark} (h : Next m rest)
    (hm : m ∈ [Mark.rightBrace, .katapusan, .mugna, .pirmi])
    (hbare : s.isBareRet = true → m = .rightBrace) : s.Followed rest := by
  have hbinding : Grammar.nextBinding rest = 0 := by
    rw [h.nextBinding]
    simp only [List.mem_cons, List.not_mem_nil, or_false] at hm
    rcases hm with rfl | rfl | rfl | rfl <;> rfl
  refine ⟨fun _ => hbinding, fun hs => hbare hs ▸ h, by omega, h.noneNext ?_⟩
  simp only [List.mem_cons, List.not_mem_nil, or_false] at hm
  rcases hm with rfl | rfl | rfl | rfl <;> decide

end Stmt

namespace Grammar

open Sugod.Parser

variable {ts mid rest : List Token}

/-! ## Declarations -/

theorem initializer_reads {equals : Token} {x : Expr} (hequals : equals.is .equal = true)
    (h : Expression x ts rest) (hnext : nextBinding rest = 0) (n e : Nat) :
    Reads (initializer n) e (equals :: ts) (some x) rest :=
  (reads_takeMark hequals).bind ((h.read hnext n e).bind (reads_pure _))

theorem initializer_reads_none (hnext : nextBinding rest ≠ 1) (n e : Nat) :
    Reads (initializer n) e rest none rest :=
  (reads_takeNone (noneNext_equal hnext)).bind (reads_pure _)

variable {ty : Ty} {mutable : Bool}

theorem Declarator.reads {d : Stmt} (h : Declarator ty mutable d ts rest)
    (hexpr : d.endsWithExpr = true → nextBinding rest = 0) (hequal : nextBinding rest ≠ 1)
    (n e : Nat) : Reads (declarator n ty mutable) e ts d rest := by
  cases h with
  | bare hname =>
    refine (reads_identifier _ hname).bind ?_
    exact (initializer_reads_none hequal n e).bind (reads_pure _)
  | init hname hequals hx =>
    refine (reads_identifier _ hname).bind ?_
    exact (initializer_reads hequals hx (hexpr rfl) n e).bind (reads_pure _)

theorem Declarators.reads {ds : List Stmt} (h : Declarators ty mutable ds ts rest)
    (hlast : ∀ d ∈ ds.getLast?, d.Followed rest) (n e : Nat) :
    Reads (declarators n ty mutable) e ts ds rest := by
  induction h generalizing n with
  | last hd =>
    have hfollowed := hlast _ rfl
    cases n with
    | zero => exact reads_spent _
    | succ n =>
      rw [declarators]
      refine (hd.reads hfollowed.expr hfollowed.equal n e).bind ?_
      exact (reads_takeNone (hfollowed.part.mono (by simp))).bind (reads_pure _)
  | @more d comma ds ts mid rest hd hcomma hmore ih =>
    have hzero : nextBinding (comma :: mid) = 0 := (next_cons hcomma).nextBinding
    have hrest := ih (by cases hmore <;> exact hlast)
    cases n with
    | zero => exact reads_spent _
    | succ n =>
      rw [declarators]
      refine (hd.reads (fun _ => hzero) (by omega) n e).bind ?_
      exact (reads_takeMark hcomma).bind ((hrest n).bind (reads_pure _))

/-- Behind the last name of a declaration, what follows the declarations or a further one of them
comes next. -/
theorem Declarations.followed {ds : List Stmt} (h : Declarations ds mid rest) {d : Stmt}
    (hd : d.isBareRet = false) (hlast : ds = [] → d.Followed rest) : d.Followed mid := by
  cases h with
  | none => exact hlast rfl
  | more hkeyword =>
    refine Stmt.followed_of_next (next_cons hkeyword) ?_ (fun hbare => by simp [hd] at hbare)
    split <;> simp

theorem Declarations.reads {ds : List Stmt} (h : Declarations ds ts rest)
    (hlast : ∀ d ∈ ds.getLast?, d.Followed rest) (hnone : NoneNext [.mugna, .pirmi] rest)
    (n e : Nat) : Reads (declarations n) e ts ds rest := by
  induction h generalizing n with
  | none =>
    cases n with
    | zero => exact reads_spent _
    | succ n =>
      rw [declarations]
      exact (reads_takeNone hnone).bind (reads_pure _)
  | @more keyword mutable t ty ds ds' ts mid rest hkeyword hty hds hmore ih =>
    obtain ⟨hany, rfl⟩ := declaringWord_iff.mp hkeyword
    have hfollowed : ∀ d ∈ ds.getLast?, d.Followed mid := by
      intro d hd
      refine hmore.followed ?_ fun hnil => hlast d (by simpa [hnil] using hd)
      obtain ⟨name, init, rfl⟩ := hds.eq_declare d (List.mem_of_getLast? hd)
      rfl
    have hrest :=
      ih (fun d hd => hlast d (by simp [List.getLast?_append, Option.mem_def.mp hd])) hnone
    cases n with
    | zero => exact reads_spent _
    | succ n =>
      rw [declarations]
      refine (reads_take hany).bind ((reads_ty hty).bind ?_)
      exact (hds.reads hfollowed n e).bind ((hrest n).bind (reads_pure _))

/-! ## Parts of statements -/

theorem Names.reads {names : List Token} (h : Names names ts rest) (hnone : NoneNext [.comma] rest)
    (place : Place) (n e : Nat) : Reads (acceptNames n place) e ts names rest := by
  induction h generalizing n place with
  | last hname =>
    cases n with
    | zero => exact reads_spent _
    | succ n =>
      rw [acceptNames]
      exact (reads_identifier _ hname).bind ((reads_takeNone hnone).bind (reads_pure _))
  | more hname hcomma _ ih =>
    cases n with
    | zero => exact reads_spent _
    | succ n =>
      rw [acceptNames]
      refine (reads_identifier _ hname).bind ((reads_takeMark hcomma).bind ?_)
      exact (ih hnone _ n).bind (reads_pure _)

/-- An expression in front of a mark that does not bind is read up to there. -/
theorem expression_reads {x : Expr} {t : Token} {m : Mark} (h : Expression x ts (t :: rest))
    (ht : t.is m = true) (hm : m.binding = 0) (n e : Nat) :
    Reads (assignment n) e ts x (t :: rest) :=
  h.read ((next_cons ht).nextBinding.trans hm) n e

theorem alternative_reads {x : Expr} (h : Alternative x ts rest) (hnext : nextBinding rest = 0)
    (n e : Nat) : Reads (level n .or) e ts x rest :=
  level_reads h.read (by rw [hnext]; decide) n e

theorem condition_reads {left right : Token} {x : Expr} (hleft : left.is .leftParen = true)
    (h : Alternative x ts (right :: rest)) (hright : right.is .rightParen = true) (n e : Nat) :
    Reads (condition n) e (left :: ts) x rest := by
  refine (reads_expect _ hleft).bind ?_
  refine (alternative_reads h (next_cons hright).nextBinding n e).bind ?_
  exact (reads_expect _ hright).bind (reads_pure _)

theorem LoopInit.reads {init : Stmt} (h : LoopInit init ts rest) (hnext : nextBinding rest = 0)
    (n e : Nat) : Reads (loopInit n) e ts init rest := by
  cases h with
  | declare hkeyword hty hd =>
    obtain ⟨hany, rfl⟩ := declaringWord_iff.mp hkeyword
    refine (reads_take hany).bind ((reads_ty hty).bind ?_)
    exact hd.reads (fun _ => hnext) (by omega) n e
  | assign hname hequals hx =>
    refine (reads_takeNone (noneNext_of_atom (.inl hname) (by decide) (by decide))).bind ?_
    refine (reads_identifier _ hname).bind ?_
    exact (reads_expect _ hequals).bind ((hx.read hnext n e).bind (reads_pure _))

theorem incrementSign_reads {marks : List Mark} {t : Token} (ht : marks.any t.is = true) (e : Nat) :
    Reads (incrementSign marks) e (t :: ts) t ts :=
  (reads_take ht).bind (reads_pure t)

theorem Increment.reads {step : Expr} (h : Increment step ts rest) (e : Nat) :
    Reads increment e ts step rest := by
  cases h with
  | @up name sign sign' rest hname hsign hsign' =>
    have hfirst : [Mark.plus, .minus].any sign.is = true := by simp [hsign]
    refine (reads_identifier _ hname).bind ((incrementSign_reads hfirst e).bind ?_)
    simp only [hsign, if_true]
    exact (incrementSign_reads (by simpa using hsign') e).bind (reads_pure _)
  | @down name sign sign' rest hname hsign hsign' =>
    have hfirst : [Mark.plus, .minus].any sign.is = true := by simp [hsign]
    have hother : sign.is .plus = false := Token.is_eq_false_of_is hsign (by decide)
    refine (reads_identifier _ hname).bind ((incrementSign_reads hfirst e).bind ?_)
    simp only [hother, Bool.false_eq_true, if_false]
    exact (incrementSign_reads (by simpa using hsign') e).bind (reads_pure _)

theorem returnValue_reads_none (hnext : Next .rightBrace rest) (n e : Nat) :
    Reads (returnValue n) e rest none rest := by
  obtain ⟨t, ts', rfl, ht⟩ := hnext
  left
  simp only [returnValue, ht, Bool.true_or, if_true]

theorem returnValue_reads {x : Expr} (h : Expression x ts rest) (hnext : nextBinding rest = 0)
    (n e : Nat) : Reads (returnValue n) e ts (some x) rest := by
  have hvalue : Reads (some <$> assignment n) e ts (some x) rest :=
    (h.read hnext n e).bind (reads_pure _)
  obtain ⟨t, ts', rfl, ht⟩ := h.starts
  have hbrace : t.is .rightBrace = false := ht.is_eq_false (by decide)
  unfold Reads returnValue
  simp only [hbrace, ht.isEof_eq_false, Bool.or_self, Bool.false_eq_true, if_false]
  exact hvalue

/-! ## Statements -/

/-- The marks behind a list of statements: a brace, or the word behind the list of a program, which
is not inside of a function. -/
def IsCloser (inFn : Bool) (closer : Mark) : Prop :=
  closer = .rightBrace ∨ (closer = .katapusan ∧ inFn = false)

/-- What the parsers do with tokens that begin with a phrase and go on with `rest`. -/
def Phrase.Read (inFn : Bool) : Phrase → List Token → List Token → Prop
  | .items ss, ts, rest =>
    ∀ closer own, IsCloser inFn closer → Next closer rest → (own = true → RetLast ss) →
      ∀ n e, Reads (Grammar.items n closer inFn own) e ts ss rest
  | .statements ss, ts, rest =>
    ∀ closer own, IsCloser inFn closer → Next closer rest → ss.IsChain Stmt.MayPrecede →
      (own = true → RetLast ss) → ∀ n e, Reads (Grammar.statements n closer inFn own) e ts ss rest
  | .statement s, ts, rest =>
    s.Followed rest → ∀ n e, Reads (Grammar.statement n inFn) e ts s rest
  | .branch b, ts, rest =>
    Next .leftParen ts ∧ ∃ mid, (∀ n e, Reads (condition n) e ts b.cond mid) ∧
      ∀ n e, Reads (Grammar.block n inFn false) e mid b.body rest
  | .elseIfs bs, ts, rest =>
    NoneNext [.kungDili] rest → ∀ n e, Reads (Grammar.elseIfs n inFn) e ts bs rest
  | .block body, ts, rest =>
    ∃ keyword ts', ts = keyword :: ts' ∧ keyword.is .pundok = true ∧
      ∀ own, (own = true → RetLast body) → ∀ n e, Reads (braced n inFn own) e ts' body rest

variable {inFn : Bool} {s : Stmt} {ss body : List Stmt} {closer : Mark}

theorem block_reads (h : Phrase.Read inFn (.block body) ts rest) (own : Bool)
    (hret : own = true → RetLast body) (n e : Nat) : Reads (block n inFn own) e ts body rest := by
  obtain ⟨keyword, ts', rfl, hkeyword, hbraced⟩ := h
  cases n with
  | zero => exact reads_spent _
  | succ n =>
    rw [block]
    exact (reads_expect _ hkeyword).bind (hbraced own hret n e)

/-- A block that is not a function's own. -/
theorem innerBlock_reads (h : Phrase.Read inFn (.block body) ts rest) (n e : Nat) :
    Reads (block n inFn false) e ts body rest :=
  block_reads h false (fun hown => nomatch hown) n e

theorem read_block {keyword left right : Token} (hkeyword : keyword.is .pundok = true)
    (hleft : left.is .leftBrace = true) (h : Phrase.Read inFn (.items body) ts (right :: rest))
    (hright : right.is .rightBrace = true) :
    Phrase.Read inFn (.block body) (keyword :: left :: ts) rest := by
  refine ⟨keyword, left :: ts, rfl, hkeyword, fun own hret n e => ?_⟩
  cases n with
  | zero => exact reads_spent _
  | succ n =>
    have hitems := h .rightBrace own (.inl rfl) (next_cons hright) hret n e
    rw [braced]
    refine (reads_expect _ hleft).bind (hitems.bind ?_)
    exact (reads_expect _ hright).bind (reads_pure body)

/-! ### Lists of statements -/

/-- Only inside of functions a return stands in a list. -/
theorem Phrase.Derives.inside_of_bare (h : Phrase.Derives inFn (.statement s) ts rest)
    (hbare : s.isBareRet = true) : inFn = true := by
  cases h <;> first | assumption | cases hbare

/-- What stands in front of some statements of a list is followed by them. -/
theorem Phrase.Derives.followed (h : Phrase.Derives inFn (.statements ss) mid rest)
    (hcloser : IsCloser inFn closer) (hnext : Next closer rest)
    (hmay : ∀ s' ∈ ss.head?, s.MayPrecede s') (hbare : s.isBareRet = true → inFn = true) :
    s.Followed mid := by
  cases h with
  | noStatement =>
    refine Stmt.followed_of_next hnext ?_ fun hs => ?_
    · rcases hcloser with rfl | ⟨rfl, -⟩ <;> simp
    · rcases hcloser with rfl | ⟨-, houtside⟩
      · rfl
      · rw [hbare hs] at houtside
        cases houtside
  | statement hfirst _ =>
    obtain ⟨t, ts', rfl, hbegins⟩ := hfirst.beginsStmt
    exact Stmt.followed_of_begins (hmay _ rfl) hbegins

/-- No declaration stands where statements begin. -/
theorem Phrase.Derives.noneNext_declaring (h : Phrase.Derives inFn (.statements ss) mid rest)
    (hcloser : IsCloser inFn closer) (hnext : Next closer rest) :
    NoneNext [.mugna, .pirmi] mid := by
  cases h with
  | noStatement =>
    refine hnext.noneNext ?_
    rcases hcloser with rfl | ⟨rfl, -⟩ <;> decide
  | statement hfirst _ =>
    obtain ⟨t, ts', rfl, hbegins⟩ := hfirst.beginsStmt
    refine noneNext_cons fun m hm => hbegins.is_eq_false ?_
    simp only [List.mem_cons, List.not_mem_nil, or_false] at hm ⊢
    tauto

theorem read_items {ds : List Stmt} (hds : Declarations ds ts mid)
    (hss : Phrase.Derives inFn (.statements ss) mid rest)
    (ih : Phrase.Read inFn (.statements ss) mid rest)
    (follow : (ds ++ ss).IsChain Stmt.MayPrecede) :
    Phrase.Read inFn (.items (ds ++ ss)) ts rest := by
  intro closer own hcloser hnext hret n e
  obtain ⟨-, hchain, hmay⟩ := List.isChain_append.mp follow
  have hlast : ∀ d ∈ ds.getLast?, d.Followed mid := by
    intro d hd
    refine hss.followed hcloser hnext (hmay d hd) fun hbare => ?_
    obtain ⟨name, ty, init, mutable, rfl⟩ := hds.eq_declare d (List.mem_of_getLast? hd)
    cases hbare
  have hretss : own = true → RetLast ss := fun hown => (List.isChain_append.mp (hret hown)).2.1
  cases n with
  | zero => exact reads_spent _
  | succ n =>
    rw [items]
    refine (hds.reads hlast (hss.noneNext_declaring hcloser hnext) n e).bind ?_
    exact (ih closer own hcloser hnext hchain hretss n e).bind (reads_pure _)

theorem read_noStatement : Phrase.Read inFn (.statements []) rest rest := by
  intro closer own _ hnext _ _ n e
  obtain ⟨t, ts', rfl, ht⟩ := hnext
  cases n with
  | zero => exact reads_spent _
  | succ n =>
    rw [statements]
    refine reads_peek.bind ?_
    simp only [List.head?_cons, ht, Bool.true_or, if_true]
    exact reads_pure []

theorem read_statement (h : Phrase.Derives inFn (.statement s) ts mid)
    (ih : Phrase.Read inFn (.statement s) ts mid)
    (hmore : Phrase.Derives inFn (.statements ss) mid rest)
    (ihmore : Phrase.Read inFn (.statements ss) mid rest) :
    Phrase.Read inFn (.statements (s :: ss)) ts rest := by
  intro closer own hcloser hnext hchain hret n e
  obtain ⟨hmay, hchain⟩ := List.isChain_cons.mp hchain
  have hs := ih (hmore.followed hcloser hnext hmay h.inside_of_bare)
  obtain ⟨t, ts', rfl, hbegins⟩ := h.beginsStmt
  have hclose : t.is closer = false := by
    refine hbegins.is_eq_false ?_
    rcases hcloser with rfl | ⟨rfl, -⟩ <;> simp
  have hmugna : t.is .mugna = false := hbegins.is_eq_false (by simp)
  have hpirmi : t.is .pirmi = false := hbegins.is_eq_false (by simp)
  cases n with
  | zero => exact reads_spent _
  | succ n =>
    rw [statements]
    refine reads_peek.bind ?_
    simp only [List.head?_cons, hclose, hbegins.isEof_eq_false, hmugna, hpirmi, Bool.or_self,
      Bool.false_eq_true, if_false]
    refine (hs n e).bind ?_
    by_cases hstop : own = true ∧ s.isRet = true
    · -- The list is a function's own and ends with a return, so nothing is left of it.
      obtain ⟨hown, hisRet⟩ := hstop
      cases hmore with
      | noStatement =>
        rw [hown, hisRet]
        exact reads_pure [s]
      | statement =>
        have hnot := (List.isChain_cons.mp (hret hown)).1 _ rfl
        rw [hisRet] at hnot
        cases hnot
    · have hgoOn : (own && s.isRet) = false := by simpa using hstop
      have hretss : own = true → RetLast ss := fun hown => (List.isChain_cons.mp (hret hown)).2
      rw [hgoOn]
      exact (ihmore closer own hcloser hnext hchain hretss n e).bind (reads_pure _)

/-! ### Conditionals -/

theorem read_noElseIf : Phrase.Read inFn (.elseIfs []) rest rest := by
  intro hnone n e
  have hat : Reads atElseIf e rest false rest := by
    left
    unfold atElseIf
    split
    · rw [hnone.is_eq_false (by simp), Bool.false_and]
    · rfl
  cases n with
  | zero => exact reads_spent _
  | succ n =>
    rw [elseIfs]
    exact hat.bind (reads_pure [])

theorem read_elseIf {keyword : Token} {b : Branch} {bs : List Branch}
    (hkeyword : keyword.is .kungDili = true) (hb : Phrase.Read inFn (.branch b) ts mid)
    (hmore : Phrase.Read inFn (.elseIfs bs) mid rest) :
    Phrase.Read inFn (.elseIfs (b :: bs)) (keyword :: ts) rest := by
  intro hnone n e
  obtain ⟨cond, body⟩ := b
  obtain ⟨⟨left, ts', rfl, hleft⟩, mid', hcond, hbody⟩ := hb
  have hat : Reads atElseIf e (keyword :: left :: ts') true (keyword :: left :: ts') := by
    left
    simp only [atElseIf, hkeyword, hleft, Bool.and_self]
  cases n with
  | zero => exact reads_spent _
  | succ n =>
    rw [elseIfs]
    refine hat.bind (reads_skip.bind ((hcond n e).bind ((hbody n e).bind ?_)))
    exact (hmore hnone n e).bind (reads_pure _)

theorem elseBlock_reads_none (hnone : NoneNext [.kungWala] rest) (alone : Bool) (n e : Nat) :
    Reads (elseBlock n inFn alone) e rest none rest := by
  have hnext : Reads (nextIs .kungWala) e rest false rest := by
    left
    cases rest with
    | nil => rfl
    | cons t ts' =>
      simp only [nextIs, List.head?_cons, Option.any_some,
        hnone.is_eq_false (List.mem_singleton_self _)]
  cases n with
  | zero => exact reads_spent _
  | succ n =>
    rw [elseBlock]
    exact hnext.bind (reads_pure none)

theorem elseBlock_reads {keyword : Token} (hkeyword : keyword.is .kungWala = true)
    (h : Phrase.Read inFn (.block body) ts rest) (n e : Nat) :
    Reads (elseBlock n inFn false) e (keyword :: ts) (some body) rest := by
  have hnext : Reads (nextIs .kungWala) e (keyword :: ts) true (keyword :: ts) := by
    left
    simp only [nextIs, List.head?_cons, Option.any_some, hkeyword]
  cases n with
  | zero => exact reads_spent _
  | succ n =>
    rw [elseBlock]
    exact hnext.bind (reads_skip.bind ((innerBlock_reads h n e).bind (reads_pure _)))

/-- The parts of a conditional, read one after the other. -/
theorem choose_reads {keyword : Token} {first : Branch} {others : List Branch}
    {otherwise : Option (List Stmt)} {mid' : List Token} (hkeyword : keyword.is .kung = true)
    (hfirst : Phrase.Read inFn (.branch first) ts mid)
    (hothers : ∀ n e, Reads (elseIfs n inFn) e mid others mid')
    (helse : ∀ n e, Reads (elseBlock n inFn others.isEmpty) e mid' otherwise rest) (n e : Nat) :
    Reads (statement n inFn) e (keyword :: ts) (.choose first others otherwise) rest := by
  obtain ⟨cond, body⟩ := first
  obtain ⟨-, behind, hcond, hbody⟩ := hfirst
  cases n with
  | zero => exact reads_spent _
  | succ n =>
    rw [statement]
    refine reads_peek.bind ?_
    simp only [List.head?_cons, Token.is_iff.mp hkeyword]
    refine reads_skip.bind ((hcond n e).bind ((hbody n e).bind ?_))
    exact (hothers n e).bind ((helse n e).bind (reads_pure _))

/-! ### Other statements -/

/-- A statement that begins like an expression is one. -/
theorem read_expr {x : Expr} (h : Expression x ts rest) :
    Phrase.Read inFn (.statement (.expr x)) ts rest := by
  intro hfollowed n e
  have hx : ∀ n, Reads (do
      let y ← assignment n
      pure (Stmt.expr y)) e ts (.expr x) rest :=
    fun n => (h.read (hfollowed.expr rfl) n e).bind (reads_pure _)
  obtain ⟨t, ts', rfl, hbegins⟩ := h.starts
  have hkeyword : ∀ {m : Mark}, t.kind = .mark m →
      m ∉ [Mark.leftParen, .bang, .minus, .plus, .oo, .dili] → False := by
    intro m hkind hm
    have his := hbegins.is_eq_false hm
    rw [Token.is_iff.mpr hkind] at his
    cases his
  cases n with
  | zero => exact reads_spent _
  | succ n =>
    rw [statement]
    refine reads_peek.bind ?_
    simp only [List.head?_cons]
    split <;> first | exact hx n | exact (hkeyword ‹_› (by decide)).elim

theorem read_display {keyword colon : Token} {x : Expr} (hkeyword : keyword.is .ipakita = true)
    (hcolon : colon.is .colon = true) (h : Alternative x ts rest) :
    Phrase.Read inFn (.statement (.display x)) (keyword :: colon :: ts) rest := by
  intro hfollowed n e
  cases n with
  | zero => exact reads_spent _
  | succ n =>
    rw [statement]
    refine reads_peek.bind ?_
    simp only [List.head?_cons, Token.is_iff.mp hkeyword]
    refine reads_skip.bind ((reads_expect _ hcolon).bind ?_)
    exact (alternative_reads h (hfollowed.expr rfl) n e).bind (reads_pure _)

theorem read_accept {keyword colon : Token} {names : List Token}
    (hkeyword : keyword.is .dawat = true) (hcolon : colon.is .colon = true)
    (h : Names names ts rest) :
    Phrase.Read inFn (.statement (.accept names)) (keyword :: colon :: ts) rest := by
  intro hfollowed n e
  cases n with
  | zero => exact reads_spent _
  | succ n =>
    rw [statement]
    refine reads_peek.bind ?_
    simp only [List.head?_cons, Token.is_iff.mp hkeyword]
    refine reads_skip.bind ((reads_expect _ hcolon).bind ?_)
    exact (h.reads (hfollowed.part.mono (by simp)) _ n e).bind (reads_pure _)

theorem read_whileLoop {keyword left right : Token} {x : Expr}
    (hkeyword : keyword.is .samtang = true) (hleft : left.is .leftParen = true)
    (h : Expression x ts (right :: mid)) (hright : right.is .rightParen = true)
    (hbody : Phrase.Read inFn (.block body) mid rest) :
    Phrase.Read inFn (.statement (.whileLoop x body)) (keyword :: left :: ts) rest := by
  intro _ n e
  cases n with
  | zero => exact reads_spent _
  | succ n =>
    rw [statement]
    refine reads_peek.bind ?_
    simp only [List.head?_cons, Token.is_iff.mp hkeyword]
    refine reads_skip.bind ((reads_expect _ hleft).bind ?_)
    refine (expression_reads h hright rfl n e).bind ((reads_expect _ hright).bind ?_)
    exact (innerBlock_reads hbody n e).bind (reads_pure _)

theorem read_forLoop {keyword left comma comma' right : Token} {init : Stmt} {x step : Expr}
    {mid' mid'' : List Token} (hkeyword : keyword.is .alangSa = true)
    (hleft : left.is .leftParen = true) (hinit : LoopInit init ts (comma :: mid))
    (hcomma : comma.is .comma = true) (h : Expression x mid (comma' :: mid'))
    (hcomma' : comma'.is .comma = true) (hstep : Increment step mid' (right :: mid''))
    (hright : right.is .rightParen = true) (hbody : Phrase.Read inFn (.block body) mid'' rest) :
    Phrase.Read inFn (.statement (.forLoop init x step body)) (keyword :: left :: ts) rest := by
  intro _ n e
  cases n with
  | zero => exact reads_spent _
  | succ n =>
    rw [statement]
    refine reads_peek.bind ?_
    simp only [List.head?_cons, Token.is_iff.mp hkeyword]
    refine reads_skip.bind ((reads_expect _ hleft).bind ?_)
    refine (hinit.reads (next_cons hcomma).nextBinding n e).bind ((reads_expect _ hcomma).bind ?_)
    refine (expression_reads h hcomma' rfl n e).bind ((reads_expect _ hcomma').bind ?_)
    refine (hstep.reads e).bind ((reads_expect _ hright).bind ?_)
    exact (innerBlock_reads hbody n e).bind (reads_pure _)

theorem read_blockStatement (h : Phrase.Read inFn (.block body) ts rest) :
    Phrase.Read inFn (.statement (.block body)) ts rest := by
  intro _ n e
  obtain ⟨keyword, ts', rfl, hkeyword, hbraced⟩ := h
  cases n with
  | zero => exact reads_spent _
  | succ n =>
    rw [statement]
    refine reads_peek.bind ?_
    simp only [List.head?_cons, Token.is_iff.mp hkeyword]
    exact reads_skip.bind ((hbraced false Bool.noConfusion n e).bind (reads_pure _))

/-- A return, with the value that stands behind it. -/
theorem ret_reads {keyword : Token} {value : Option Expr} (hkeyword : keyword.is .iuli = true)
    (h : ∀ n e, Reads (returnValue n) e ts value rest) (n e : Nat) :
    Reads (statement n true) e (keyword :: ts) (.ret keyword value) rest := by
  cases n with
  | zero => exact reads_spent _
  | succ n =>
    rw [statement]
    refine reads_peek.bind ?_
    simp only [List.head?_cons, Token.is_iff.mp hkeyword, if_true]
    exact reads_skip.bind ((h n e).bind (reads_pure _))

/-! ### All statements -/

/-- **Every written statement is read back.** -/
theorem Phrase.Derives.read {phrase : Phrase} (h : phrase.Derives inFn ts rest) :
    phrase.Read inFn ts rest := by
  induction h with
  | items hds hss follow ih => exact read_items hds hss ih follow
  | noStatement => exact read_noStatement
  | statement h hmore ih ihmore => exact read_statement h ih hmore ihmore
  | display hkeyword hcolon he => exact read_display hkeyword hcolon he
  | accept hkeyword hcolon hnames => exact read_accept hkeyword hcolon hnames
  | choose hkeyword _ _ ihfirst ihothers =>
    intro hfollowed n e
    exact choose_reads hkeyword ihfirst (ihothers (hfollowed.part.mono (by simp)))
      (elseBlock_reads_none (hfollowed.part.mono (by simp)) _) n e
  | @chooseElse keyword first others keyword' body ts mid mid' rest hkeyword _ _ notAlone hkeyword'
      _ ihfirst ihothers ihbody =>
    intro _ n e
    have halone : others.isEmpty = false := List.isEmpty_eq_false_iff.mpr notAlone
    have hdone := ihothers ((next_cons hkeyword').noneNext (by decide))
    refine choose_reads hkeyword ihfirst hdone ?_ n e
    rw [halone]
    exact elseBlock_reads hkeyword' ihbody
  | whileLoop hkeyword hleft he hright _ ih => exact read_whileLoop hkeyword hleft he hright ih
  | forLoop hkeyword hleft hinit hcomma he hcomma' hstep hright _ ih =>
    exact read_forLoop hkeyword hleft hinit hcomma he hcomma' hstep hright ih
  | blockStatement _ ih => exact read_blockStatement ih
  | bareRet inside hkeyword =>
    intro hfollowed n e
    rw [inside]
    exact ret_reads hkeyword (returnValue_reads_none (hfollowed.bare rfl)) n e
  | ret inside hkeyword he =>
    intro hfollowed n e
    rw [inside]
    exact ret_reads hkeyword (returnValue_reads he (hfollowed.expr rfl)) n e
  | expr he => exact read_expr he
  | branch hleft he hright _ ih =>
    exact ⟨next_cons hleft, _, condition_reads hleft he hright, innerBlock_reads ih⟩
  | noElseIf => exact read_noElseIf
  | elseIf hkeyword _ _ ihb ihmore => exact read_elseIf hkeyword ihb ihmore
  | block hkeyword hleft _ hright ih => exact read_block hkeyword hleft ih hright

/-! ## Programs -/

theorem Params.reads {ps : List Param} (h : Params ps ts rest) (hnext : Next .rightParen rest)
    (count : Nat) (few : count + ps.length ≤ 255) (n e : Nat) :
    Reads (params n count) e ts ps rest := by
  induction h generalizing n count with
  | last hty hname =>
    cases n with
    | zero => exact reads_spent _
    | succ n =>
      have hroom : ¬maxArity ≤ count := Nat.not_le_of_lt few
      rw [params, if_neg hroom]
      refine (reads_ty hty).bind ((reads_identifier _ hname).bind ?_)
      exact (reads_takeNone (hnext.noneNext (by decide))).bind (reads_pure _)
  | more hty hname hcomma _ ih =>
    rw [List.length_cons] at few
    cases n with
    | zero => exact reads_spent _
    | succ n =>
      have hroom : ¬maxArity ≤ count := by
        unfold maxArity
        omega
      have hmore := ih hnext (count + 1) (by omega) n
      rw [params, if_neg hroom]
      refine (reads_ty hty).bind ((reads_identifier _ hname).bind ?_)
      exact (reads_takeMark hcomma).bind (hmore.bind (reads_pure _))

/-- Parameters do not begin with the parenthesis behind them. -/
theorem Params.noneNext_rightParen {ps : List Param} (h : Params ps ts rest) :
    NoneNext [.rightParen] ts := by
  cases h with
  | last hty => exact (next_cons hty).noneNext (by simp)
  | more hty => exact (next_cons hty).noneNext (by simp)

/-- A list of parameters is read between its parentheses. -/
theorem ParamList.reads {ps : List Param} (h : ParamList ps ts rest) :
    ∃ left right mid, ts = left :: mid ∧ left.is .leftParen = true ∧ right.is .rightParen = true ∧
      ∀ n e, Reads (unlessNext .rightParen [] (params n 0)) e mid ps (right :: rest) := by
  cases h with
  | @empty left right rest hleft hright =>
    exact ⟨left, right, _, rfl, hleft, hright, fun n e => reads_unlessNext_next (next_cons hright)⟩
  | @some left right ps ts rest hleft hps hright few =>
    refine ⟨left, right, ts, rfl, hleft, hright, fun n e => ?_⟩
    have hparams := hps.reads (next_cons hright) 0 (by omega) n e
    exact reads_unlessNext hps.noneNext_rightParen hparams

theorem ReturnTy.reads {o : Option Ty} {name : Token} (h : ReturnTy o ts (name :: rest))
    (hname : name.IsName) (e : Nat) : Reads ty? e ts o (name :: rest) := by
  cases h with
  | some hty => exact reads_ty? hty
  | none =>
    obtain ⟨text, htext⟩ := hname
    left
    simp only [ty?, htext, Kind.ty?]

theorem declared_reads {name : Token} {ps : List Param} {o : Option Ty}
    (h : o ≠ none → ∃ s, body.getLast? = some s ∧ s.isRet = true) (e : Nat) :
    Reads (declared name ps body o) e ts ⟨name, ps, body, o⟩ ts := by
  cases o with
  | none => exact reads_pure _
  | some ty =>
    have hends : endsWithRet body = true :=
      (Option.any_eq_true _ _).mpr (h (Option.some_ne_none ty))
    simp only [declared, hends, if_true]
    exact reads_pure _

theorem Function.reads {decl : FunDecl} (h : Function decl ts rest) :
    ∃ keyword ts', ts = keyword :: ts' ∧ keyword.is .buhat = true ∧
      ∀ n e, Reads (function n) e ts' decl rest := by
  cases h with
  | @mk keyword returnTy name ps body ts mid mid' rest hkeyword hty hname hps hbody retLast
      retThere =>
    refine ⟨keyword, ts, rfl, hkeyword, fun n e => ?_⟩
    obtain ⟨left, right, inner, rfl, hleft, hright, hlist⟩ := hps.reads
    have hblock := block_reads hbody.read true (fun _ => retLast) n e
    refine (hty.reads hname e).bind ((reads_identifier _ hname).bind ?_)
    refine (reads_expect _ hleft).bind ((hlist n e).bind ((reads_expect _ hright).bind ?_))
    exact hblock.bind (declared_reads retThere e)

theorem Functions.reads {fs : List Stmt} (h : Functions fs ts rest) (hnone : NoneNext [.buhat] rest)
    (n e : Nat) : Reads (functions n) e ts fs rest := by
  induction h generalizing n with
  | none =>
    cases n with
    | zero => exact reads_spent _
    | succ n =>
      rw [functions]
      exact (reads_takeNone hnone).bind (reads_pure _)
  | more hdecl _ ih =>
    obtain ⟨keyword, ts', rfl, hkeyword, hfunction⟩ := hdecl.reads
    cases n with
    | zero => exact reads_spent _
    | succ n =>
      rw [functions]
      refine (reads_takeMark hkeyword).bind ((hfunction n e).bind ?_)
      exact (ih hnone n).bind (reads_pure _)

/-- A written program is read up to its end. -/
theorem Derives.reads {p : Program} (h : Derives p ts) (n e : Nat) :
    Reads (program n) e ts p [] := by
  cases h with
  | @mk fs sugod ss katapusan ts mid hfs hsugod hss hkatapusan =>
    have hitems := hss.read .katapusan false (.inr ⟨rfl, rfl⟩) (next_cons hkatapusan)
      (fun hown => nomatch hown) n e
    have hfunctions := hfs.reads ((next_cons hsugod).noneNext (by decide)) n e
    refine hfunctions.bind ((reads_expect _ hsugod).bind (hitems.bind ?_))
    exact (reads_expect _ hkatapusan).bind (.inl rfl)

/-- What is written is what is read if an end token stands behind it, or nothing. -/
theorem Derives.body_append {p : Program} (h : Derives p ts) {tail : List Token}
    (htail : ∀ t ∈ tail.head?, t.kind.isEof = true) : Grammar.body (ts ++ tail) = ts := by
  have hkept : ∀ t ∈ ts, (!t.kind.isEof) = true := by
    intro t ht
    rw [h.isEof_eq_false t ht]
    rfl
  unfold Grammar.body
  rw [List.takeWhile_append_of_pos hkept]
  cases tail with
  | nil => rw [List.takeWhile_nil, List.append_nil]
  | cons t tail =>
    have hstop : (!t.kind.isEof) = false := by
      rw [htail t rfl]
      rfl
    rw [List.takeWhile_cons, hstop]
    exact List.append_nil ts

/-- **Writing a program and parsing it gives it back.** On the tokens that a program is written out
with, up to the end of the list or to an end token, the parser gives that program. -/
theorem written_parses (p : Program) (ts tail : List Token) (h : Derives p ts)
    (htail : ∀ t ∈ tail.head?, t.kind.isEof = true) : parse (ts ++ tail) = .ok p := by
  rw [parse_eq_ok_iff, h.body_append htail]
  rcases h.reads (steps ts) (endLine (ts ++ tail)) with hok | hspent
  · exact ⟨[], hok⟩
  · exact absurd hspent (program_ne_spent _ ts)

/-- The small program is given back, whatever stands behind the end token. -/
theorem written_parses_doubling :
    Derives doubling doublingTokens ∧
      parse (doublingTokens ++ [⟨.eof, "", 4⟩, written .sugod 5]) = .ok doubling := by
  refine ⟨derives_doubling, written_parses doubling doublingTokens _ derives_doubling ?_⟩
  intro t ht
  cases ht
  rfl

end Grammar

end Sugod
