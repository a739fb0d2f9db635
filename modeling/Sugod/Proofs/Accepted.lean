import Sugod.Proofs.AcceptedExpr
import Sugod.Proofs.EndOfInput
import Sugod.Proofs.Frame

/-!
# Accepted programs

The parser accepts nothing but programs of the grammar, and the tree that it gives is the one that
the grammar builds from all the tokens. The main statement is `accepted_derives`.

A list of statements has no separators. That the statements which are parsed may follow each other
(`Stmt.MayPrecede`) is due to the greed of the parsers: behind a statement that ends with an
expression there is no token that would have continued it, so the next statement does not begin with
one. `Stmt.Closes` is what a parsed statement leaves behind.
-/

set_option autoImplicit false

namespace Sugod

/-- What is left behind a statement: behind an expression no operator and no call that continues it,
and behind a return without a value the end of a block or of the input. -/
structure Stmt.Closes (s : Stmt) (rest : List Token) : Prop where
  expr : s.endsWithExpr = true → Grammar.nextBinding rest ≤ 1
  bare : s.isBareRet = true → rest = [] ∨
    ∃ t ts, rest = t :: ts ∧ (t.is .rightBrace || t.kind.isEof) = true

/-- A statement that ends with neither an expression nor a return leaves anything behind. -/
theorem Stmt.closes_of_closed {s : Stmt} (hexpr : s.endsWithExpr = false)
    (hbare : s.isBareRet = false) (rest : List Token) : s.Closes rest :=
  ⟨fun h => by simp [hexpr] at h, fun h => by simp [hbare] at h⟩

namespace Grammar

open Sugod.Parser

variable {n e : Nat} {ts rest : List Token}

/-! ## Declarations -/

theorem initializer_accepts {o : Option Expr} (h : initializer n e ts = .ok o rest) :
    (o = none ∧ rest = ts) ∨ ∃ equals x mid, o = some x ∧ ts = equals :: mid ∧
      equals.is .equal = true ∧ Expression x mid rest ∧ nextBinding rest = 0 := by
  simp only [initializer, bind_eq_ok_iff] at h
  obtain ⟨t?, mid, ht, h⟩ := h
  rcases of_take?_eq_ok ht with ⟨rfl, rfl, -⟩ | ⟨equals, rfl, rfl, hequals⟩
  · obtain ⟨rfl, rfl⟩ := of_pure_eq_ok h
    exact .inl ⟨rfl, rfl⟩
  · obtain ⟨x, mid', hx, h⟩ := bind_eq_ok_iff.mp h
    obtain ⟨rfl, rfl⟩ := of_pure_eq_ok h
    obtain ⟨hx, hnext⟩ := (accepts n).assignment hx
    exact .inr ⟨equals, x, mid, rfl, rfl, any_singleton ▸ hequals, hx, hnext⟩

theorem declarator_accepts {ty : Ty} {mutable : Bool} {d : Stmt}
    (h : declarator n ty mutable e ts = .ok d rest) :
    Declarator ty mutable d ts rest ∧ d.Closes rest := by
  simp only [declarator, bind_eq_ok_iff] at h
  obtain ⟨name, mid, hident, init, mid', hinit, h⟩ := h
  obtain ⟨rfl, hname⟩ := of_identifier_eq_ok hident
  obtain ⟨rfl, rfl⟩ := of_pure_eq_ok h
  rcases initializer_accepts hinit with ⟨rfl, rfl⟩ | ⟨equals, x, mid, rfl, rfl, hequals, hx, hnext⟩
  · exact ⟨.bare hname, Stmt.closes_of_closed rfl rfl _⟩
  · exact ⟨.init hname hequals hx, fun _ => by omega, (nomatch ·)⟩

/-- The last of some statements leaves `rest` behind. -/
def LastCloses (ss : List Stmt) (rest : List Token) : Prop :=
  ∀ s ∈ ss.getLast?, s.Closes rest

theorem declarators_accept {ty : Ty} {mutable : Bool} {ds : List Stmt}
    (h : declarators n ty mutable e ts = .ok ds rest) :
    Declarators ty mutable ds ts rest ∧ LastCloses ds rest := by
  induction n generalizing ts ds with
  | zero => cases h
  | succ n ih =>
    simp only [declarators, bind_eq_ok_iff] at h
    obtain ⟨d, mid, hd, o, mid', ho, h⟩ := h
    obtain ⟨hd, hcloses⟩ := declarator_accepts hd
    rcases of_take?_eq_ok ho with ⟨rfl, rfl, -⟩ | ⟨comma, rfl, rfl, hcomma⟩
    · obtain ⟨rfl, rfl⟩ := of_pure_eq_ok h
      refine ⟨.last hd, fun s hs => ?_⟩
      cases hs
      exact hcloses
    · obtain ⟨more, mid'', hmore, h⟩ := bind_eq_ok_iff.mp h
      obtain ⟨rfl, rfl⟩ := of_pure_eq_ok h
      obtain ⟨hm, hlast⟩ := ih hmore
      refine ⟨.more hd (any_singleton ▸ hcomma) hm, ?_⟩
      cases hm <;> exact hlast

theorem declarations_accept {ds : List Stmt} (h : declarations n e ts = .ok ds rest) :
    Declarations ds ts rest ∧ LastCloses ds rest := by
  induction n generalizing ts ds with
  | zero => cases h
  | succ n ih =>
    simp only [declarations, bind_eq_ok_iff] at h
    obtain ⟨o, mid, ho, h⟩ := h
    rcases of_take?_eq_ok ho with ⟨rfl, rfl, -⟩ | ⟨keyword, rfl, rfl, hkeyword⟩
    · obtain ⟨rfl, rfl⟩ := of_pure_eq_ok h
      exact ⟨.none, fun s hs => absurd hs (Option.some_ne_none s).symm⟩
    · simp only [bind_eq_ok_iff] at h
      obtain ⟨ty, mid', hty, ds', mid'', hds, more, mid₃, hmore, h⟩ := h
      obtain ⟨rfl, rfl⟩ := of_pure_eq_ok h
      obtain ⟨t, rfl, ht⟩ := of_ty_eq_ok hty
      obtain ⟨hd, hlast⟩ := declarators_accept hds
      obtain ⟨hm, hlastMore⟩ := ih hmore
      refine ⟨.more (declaringWord_iff.mpr ⟨hkeyword, rfl⟩) ht hd hm, ?_⟩
      -- The last statement is the last one of the further declarations, if there are any.
      cases more with
      | nil =>
        rw [hm.eq_of_nil, List.append_nil]
        exact hlast
      | cons d more =>
        intro s hs
        rw [List.getLast?_append_of_ne_nil _ (List.cons_ne_nil d more)] at hs
        exact hlastMore s hs

/-- What holds between any declaration and any other one holds in a list of declarations. -/
theorem Declarations.isChain {ds : List Stmt} (h : Declarations ds ts rest)
    {R : Stmt → Stmt → Prop}
    (hR : ∀ name ty init mutable name' ty' init' mutable',
      R (.declare name ty init mutable) (.declare name' ty' init' mutable')) : ds.IsChain R := by
  refine (List.pairwise_of_forall_mem_list fun d hd d' hd' => ?_).isChain
  obtain ⟨name, ty, init, mutable, rfl⟩ := h.eq_declare d hd
  obtain ⟨name', ty', init', mutable', rfl⟩ := h.eq_declare d' hd'
  exact hR name ty init mutable name' ty' init' mutable'

/-! ## Parts of statements -/

theorem acceptNames_accept {place : Place} {names : List Token}
    (h : acceptNames n place e ts = .ok names rest) : Names names ts rest := by
  induction n generalizing ts names place with
  | zero => cases h
  | succ n ih =>
    simp only [acceptNames, bind_eq_ok_iff] at h
    obtain ⟨name, mid, hident, o, mid', ho, h⟩ := h
    obtain ⟨rfl, hname⟩ := of_identifier_eq_ok hident
    rcases of_take?_eq_ok ho with ⟨rfl, rfl, -⟩ | ⟨comma, rfl, rfl, hcomma⟩
    · obtain ⟨rfl, rfl⟩ := of_pure_eq_ok h
      exact .last hname
    · obtain ⟨more, mid'', hmore, h⟩ := bind_eq_ok_iff.mp h
      obtain ⟨rfl, rfl⟩ := of_pure_eq_ok h
      exact .more hname (any_singleton ▸ hcomma) (ih hmore)

theorem condition_accepts {x : Expr} (h : condition n e ts = .ok x rest) :
    ∃ left right mid, ts = left :: mid ∧ left.is .leftParen = true ∧
      Alternative x mid (right :: rest) ∧ right.is .rightParen = true := by
  simp only [condition, bind_eq_ok_iff] at h
  obtain ⟨left, mid, hl, y, mid', hx, right, mid'', hr, h⟩ := h
  obtain ⟨rfl, rfl⟩ := of_pure_eq_ok h
  obtain ⟨rfl, hleft⟩ := of_expect_eq_ok hl
  obtain ⟨rfl, hright⟩ := of_expect_eq_ok hr
  exact ⟨left, right, mid, rfl, hleft, ((accepts n).level hx).1, hright⟩

theorem loopInit_accepts {init : Stmt} (h : loopInit n e ts = .ok init rest) :
    LoopInit init ts rest := by
  simp only [loopInit, bind_eq_ok_iff] at h
  obtain ⟨o, mid, ho, h⟩ := h
  rcases of_take?_eq_ok ho with ⟨rfl, rfl, -⟩ | ⟨keyword, rfl, rfl, hkeyword⟩
  · simp only [bind_eq_ok_iff] at h
    obtain ⟨name, mid, hident, equals, mid', hexpect, x, mid'', hx, h⟩ := h
    obtain ⟨rfl, rfl⟩ := of_pure_eq_ok h
    obtain ⟨rfl, hname⟩ := of_identifier_eq_ok hident
    obtain ⟨rfl, hequals⟩ := of_expect_eq_ok hexpect
    exact .assign hname hequals ((accepts n).assignment hx).1
  · simp only [bind_eq_ok_iff] at h
    obtain ⟨ty, mid', hty, hd⟩ := h
    obtain ⟨t, rfl, ht⟩ := of_ty_eq_ok hty
    exact .declare (declaringWord_iff.mpr ⟨hkeyword, rfl⟩) ht (declarator_accepts hd).1

theorem incrementSign_accepts {marks : List Mark} {t : Token}
    (h : incrementSign marks e ts = .ok t rest) : ts = t :: rest ∧ marks.any t.is = true := by
  simp only [incrementSign, bind_eq_ok_iff] at h
  obtain ⟨o, mid, ho, h⟩ := h
  rcases of_take?_eq_ok ho with ⟨rfl, rfl, -⟩ | ⟨op, rfl, rfl, hop⟩
  · cases h
  · obtain ⟨rfl, rfl⟩ := of_pure_eq_ok h
    exact ⟨rfl, hop⟩

theorem increment_accepts {x : Expr} (h : increment e ts = .ok x rest) : Increment x ts rest := by
  simp only [increment, bind_eq_ok_iff] at h
  obtain ⟨name, mid, hident, sign, mid', hfirst, h⟩ := h
  obtain ⟨rfl, hname⟩ := of_identifier_eq_ok hident
  obtain ⟨rfl, hsign⟩ := incrementSign_accepts hfirst
  split at h
  · rename_i hplus
    obtain ⟨sign', mid'', hsecond, h⟩ := bind_eq_ok_iff.mp h
    obtain ⟨rfl, rfl⟩ := of_pure_eq_ok h
    obtain ⟨rfl, hsign'⟩ := incrementSign_accepts hsecond
    exact .up hname hplus (any_singleton ▸ hsign')
  · rename_i hplus
    obtain ⟨sign', mid'', hsecond, h⟩ := bind_eq_ok_iff.mp h
    obtain ⟨rfl, rfl⟩ := of_pure_eq_ok h
    obtain ⟨rfl, hsign'⟩ := incrementSign_accepts hsecond
    have hminus : sign.is .minus = true := by simpa [hplus] using hsign
    exact .down hname hminus (any_singleton ▸ hsign')

theorem returnValue_accepts {keyword : Token} {o : Option Expr}
    (hkeyword : keyword.is .iuli = true) (h : returnValue n e ts = .ok o rest) :
    Phrase.Derives true (.statement (.ret keyword o)) (keyword :: ts) rest ∧
      (Stmt.ret keyword o).Closes rest := by
  unfold returnValue at h
  split at h
  · cases h
    exact ⟨.bareRet rfl hkeyword, (nomatch ·), fun _ => .inl rfl⟩
  · split at h
    · rename_i t ts' hend
      cases h
      exact ⟨.bareRet rfl hkeyword, (nomatch ·), fun _ => .inr ⟨t, ts', rfl, hend⟩⟩
    · obtain ⟨x, mid, hx, h⟩ := bind_eq_ok_iff.mp h
      cases h
      obtain ⟨hx, hnext⟩ := (accepts n).assignment hx
      exact ⟨.ret rfl hkeyword hx, fun _ => by omega, (nomatch ·)⟩

/-! ## Statements -/

/-- What the parsers of statements accept, by the number of steps. With `own`, a list ends behind a
return. Inside of functions, lists end with a brace. -/
structure AcceptsStmt (n : Nat) : Prop where
  items : ∀ {closer inFn own e ts ss rest}, items n closer inFn own e ts = .ok ss rest →
    (inFn = true → closer = .rightBrace) →
    Phrase.Derives inFn (.items ss) ts rest ∧ (own = true → RetLast ss)
  statements : ∀ {closer inFn own e ts ss rest}, statements n closer inFn own e ts = .ok ss rest →
    (inFn = true → closer = .rightBrace) →
    Phrase.Derives inFn (.statements ss) ts rest ∧ ss.IsChain Stmt.MayPrecede ∧
      (own = true → RetLast ss)
  statement : ∀ {inFn e ts s rest}, statement n inFn e ts = .ok s rest →
    Phrase.Derives inFn (.statement s) ts rest ∧ s.Closes rest
  elseIfs : ∀ {inFn e ts bs rest}, elseIfs n inFn e ts = .ok bs rest →
    Phrase.Derives inFn (.elseIfs bs) ts rest
  elseBlock : ∀ {inFn alone e ts o rest}, elseBlock n inFn alone e ts = .ok o rest →
    (o = none ∧ rest = ts) ∨ ∃ keyword body mid, o = some body ∧ alone = false ∧
      ts = keyword :: mid ∧ keyword.is .kungWala = true ∧
      Phrase.Derives inFn (.block body) mid rest
  block : ∀ {inFn own e ts body rest}, block n inFn own e ts = .ok body rest →
    Phrase.Derives inFn (.block body) ts rest ∧ (own = true → RetLast body)
  braced : ∀ {inFn own e ts body rest}, braced n inFn own e ts = .ok body rest →
    ∀ {keyword : Token}, keyword.is .pundok = true →
    Phrase.Derives inFn (.block body) (keyword :: ts) rest ∧ (own = true → RetLast body)

/-- Where no token continues an expression, no statement begins that would. -/
theorem Phrase.Derives.head_continues {inFn : Bool} {ss : List Stmt}
    (h : Phrase.Derives inFn (.statements ss) ts rest) (hnext : nextBinding ts ≤ 1) :
    ∀ s ∈ ss.head?, s.continues = false := by
  intro s hs
  cases h with
  | noStatement => cases hs
  | statement hfirst _ =>
    cases hs
    obtain ⟨t, ts', rfl, hbegins⟩ := hfirst.beginsStmt
    rcases hbegins.binding_cases with ⟨hcontinues, -⟩ | ⟨-, hlt⟩
    · exact hcontinues
    · exact absurd hnext (Nat.not_le_of_lt hlt)

theorem items_accept (ih : AcceptsStmt n) {closer : Mark} {inFn own : Bool} {ss : List Stmt}
    (h : items (n + 1) closer inFn own e ts = .ok ss rest)
    (hcloser : inFn = true → closer = .rightBrace) :
    Phrase.Derives inFn (.items ss) ts rest ∧ (own = true → RetLast ss) := by
  simp only [Grammar.items, bind_eq_ok_iff] at h
  obtain ⟨ds, mid, hds, ss', mid', hss, h⟩ := h
  obtain ⟨rfl, rfl⟩ := of_pure_eq_ok h
  obtain ⟨hds, hlast⟩ := declarations_accept hds
  obtain ⟨hss, hchain, hret⟩ := ih.statements hss hcloser
  have hdeclare : ∀ d ∈ ds.getLast?, ∃ name ty init mutable, d = .declare name ty init mutable :=
    fun d hd => hds.eq_declare d (List.mem_of_getLast? hd)
  refine ⟨.items hds hss (List.isChain_append.mpr ⟨?_, hchain, fun d hd s hs => ?_⟩), fun hown =>
    List.isChain_append.mpr ⟨?_, hret hown, fun d hd s hs => ?_⟩⟩
  · exact hds.isChain fun _ _ _ _ _ _ _ _ => ⟨rfl, fun _ => rfl⟩
  · obtain ⟨name, ty, init, mutable, rfl⟩ := hdeclare d hd
    exact ⟨rfl, fun hexpr => hss.head_continues ((hlast _ hd).expr hexpr) s hs⟩
  · exact hds.isChain fun _ _ _ _ _ _ _ _ => rfl
  · obtain ⟨name, ty, init, mutable, rfl⟩ := hdeclare d hd
    rfl

/-- A list of statements ends in front of its closing mark and at the end of the input. -/
theorem statements_eq_nil {closer : Mark} {inFn own : Bool} {ss : List Stmt}
    (h : statements n closer inFn own e ts = .ok ss rest)
    (hend : ts = [] ∨ ∃ t ts', ts = t :: ts' ∧ (t.is closer || t.kind.isEof) = true) :
    ss = [] := by
  cases n with
  | zero => cases h
  | succ n =>
    simp only [Grammar.statements, bind_apply, peek] at h
    rcases hend with rfl | ⟨t, ts', rfl, hend⟩
    · cases h
      rfl
    · simp only [List.head?_cons, hend, if_true] at h
      cases h
      rfl

theorem statements_accept (ih : AcceptsStmt n) {closer : Mark} {inFn own : Bool} {ss : List Stmt}
    (h : statements (n + 1) closer inFn own e ts = .ok ss rest)
    (hcloser : inFn = true → closer = .rightBrace) :
    Phrase.Derives inFn (.statements ss) ts rest ∧ ss.IsChain Stmt.MayPrecede ∧
      (own = true → RetLast ss) := by
  have hnone : Phrase.Derives inFn (.statements []) rest rest ∧
      ([] : List Stmt).IsChain Stmt.MayPrecede ∧ (own = true → RetLast []) :=
    ⟨.noStatement, .nil, fun _ => .nil⟩
  simp only [Grammar.statements, bind_apply, peek] at h
  cases ts with
  | nil =>
    cases h
    exact hnone
  | cons t ts' =>
    simp only [List.head?_cons] at h
    split at h
    · cases h
      exact hnone
    · split at h
      · cases h
      · replace h := (bind_eq_ok_iff (p := statement n inFn)).mp h
        obtain ⟨s, mid, hs, h⟩ := h
        obtain ⟨hs, hcloses⟩ := ih.statement hs
        split at h
        · cases h
          exact ⟨.statement hs .noStatement, .singleton s, fun _ => .singleton s⟩
        · rename_i hgoOn
          obtain ⟨ss', mid', hss, h⟩ := bind_eq_ok_iff.mp h
          obtain ⟨rfl, rfl⟩ := of_pure_eq_ok h
          obtain ⟨hss', hchain, hret⟩ := ih.statements hss hcloser
          refine ⟨.statement hs hss', hchain.cons fun s' hs' => ⟨?_, fun hexpr => ?_⟩,
            fun hown => (hret hown).cons fun _ _ => ?_⟩
          · -- Behind a return without a value the list is at its end.
            rw [Bool.eq_false_iff]
            intro hbare
            have hinside : inFn = true := by
              cases hs <;> first | assumption | cases hbare
            rw [hcloser hinside] at hss
            rw [statements_eq_nil hss (hcloses.bare hbare)] at hs'
            cases hs'
          · exact hss'.head_continues (hcloses.expr hexpr) s' hs'
          · simpa [hown] using hgoOn

theorem elseIfs_accept (ih : AcceptsStmt n) {inFn : Bool} {bs : List Branch}
    (h : elseIfs (n + 1) inFn e ts = .ok bs rest) : Phrase.Derives inFn (.elseIfs bs) ts rest := by
  simp only [Grammar.elseIfs, bind_eq_ok_iff] at h
  obtain ⟨more, mid, hmore, h⟩ := h
  unfold atElseIf at hmore
  split at hmore
  · rename_i t t' ts'
    cases hmore
    split at h
    · rename_i hnext
      rw [Bool.and_eq_true] at hnext
      simp only [bind_eq_ok_iff] at h
      obtain ⟨_, mid, hskip, x, mid', hx, body, mid'', hbody, bs', mid₃, hbs, h⟩ := h
      cases hskip
      obtain ⟨rfl, rfl⟩ := of_pure_eq_ok h
      obtain ⟨left, right, mid₄, hts, hleft, hx, hright⟩ := condition_accepts hx
      rw [List.tail_cons] at hts
      rw [hts]
      exact .elseIf hnext.1 (.branch hleft hx hright (ih.block hbody).1) (ih.elseIfs hbs)
    · cases h
      exact .noElseIf
  · cases hmore
    cases h
    exact .noElseIf

theorem elseBlock_accepts (ih : AcceptsStmt n) {inFn alone : Bool} {o : Option (List Stmt)}
    (h : elseBlock (n + 1) inFn alone e ts = .ok o rest) :
    (o = none ∧ rest = ts) ∨ ∃ keyword body mid, o = some body ∧ alone = false ∧
      ts = keyword :: mid ∧ keyword.is .kungWala = true ∧
      Phrase.Derives inFn (.block body) mid rest := by
  simp only [Grammar.elseBlock, bind_eq_ok_iff] at h
  obtain ⟨found, mid, hfound, h⟩ := h
  cases hfound
  split at h
  · rename_i hnext
    split at h
    · cases h
    · rename_i halone
      simp only [bind_eq_ok_iff] at h
      obtain ⟨_, mid, hskip, body, mid', hbody, h⟩ := h
      cases hskip
      obtain ⟨rfl, rfl⟩ := of_pure_eq_ok h
      cases ts with
      | nil => cases hnext
      | cons t ts' =>
        exact .inr ⟨t, body, ts', rfl, Bool.eq_false_iff.mpr halone, rfl, hnext,
          (ih.block hbody).1⟩
  · cases h
    exact .inl ⟨rfl, rfl⟩

theorem braced_accepts (ih : AcceptsStmt n) {inFn own : Bool} {body : List Stmt}
    (h : braced (n + 1) inFn own e ts = .ok body rest) {keyword : Token}
    (hkeyword : keyword.is .pundok = true) :
    Phrase.Derives inFn (.block body) (keyword :: ts) rest ∧ (own = true → RetLast body) := by
  simp only [Grammar.braced, bind_eq_ok_iff] at h
  obtain ⟨left, mid, hl, body', mid', hbody, right, mid'', hr, h⟩ := h
  obtain ⟨rfl, rfl⟩ := of_pure_eq_ok h
  obtain ⟨rfl, hleft⟩ := of_expect_eq_ok hl
  obtain ⟨rfl, hright⟩ := of_expect_eq_ok hr
  obtain ⟨hitems, hret⟩ := ih.items hbody fun _ => rfl
  exact ⟨.block hkeyword hleft hitems hright, hret⟩

theorem block_accepts (ih : AcceptsStmt n) {inFn own : Bool} {body : List Stmt}
    (h : block (n + 1) inFn own e ts = .ok body rest) :
    Phrase.Derives inFn (.block body) ts rest ∧ (own = true → RetLast body) := by
  simp only [Grammar.block, bind_eq_ok_iff] at h
  obtain ⟨keyword, mid, hexpect, h⟩ := h
  obtain ⟨rfl, hkeyword⟩ := of_expect_eq_ok hexpect
  exact ih.braced h hkeyword

/-! ### Each kind of statement

What stands behind the keyword of a statement is parsed as the kind asks for. -/

/-- The tokens are the statement written out, up to the rest, in front of which it closes. -/
def IsStatement (inFn : Bool) (ts : List Token) (s : Stmt) (rest : List Token) : Prop :=
  Phrase.Derives inFn (.statement s) ts rest ∧ s.Closes rest

section Kinds

variable {inFn : Bool} {keyword : Token}

theorem exprStmt_accepts :
    Ensures (do
      let x ← assignment n
      pure (Stmt.expr x)) e ts (IsStatement inFn ts) := by
  intro s rest h
  obtain ⟨x, mid, hx, h⟩ := bind_eq_ok_iff.mp h
  obtain ⟨rfl, rfl⟩ := of_pure_eq_ok h
  obtain ⟨hx, hnext⟩ := (accepts n).assignment hx
  exact ⟨.expr hx, fun _ => by omega, Bool.noConfusion⟩

theorem display_accepts (hkeyword : keyword.is .ipakita = true) :
    Ensures (do
      let _ ← expect .colon .afterIpakita
      let x ← level n .or
      pure (Stmt.display x)) e ts (IsStatement inFn (keyword :: ts)) := by
  intro s rest h
  simp only [bind_eq_ok_iff] at h
  obtain ⟨colon, mid, hexpect, x, mid', hx, h⟩ := h
  obtain ⟨rfl, rfl⟩ := of_pure_eq_ok h
  obtain ⟨rfl, hcolon⟩ := of_expect_eq_ok hexpect
  obtain ⟨hx, hnext⟩ := (accepts n).level hx
  exact ⟨.display hkeyword hcolon hx, fun _ => Nat.le_of_lt_succ hnext, Bool.noConfusion⟩

theorem accept_accepts (hkeyword : keyword.is .dawat = true) :
    Ensures (do
      let _ ← expect .colon .afterDawat
      let names ← acceptNames n .dawatName
      pure (Stmt.accept names)) e ts (IsStatement inFn (keyword :: ts)) := by
  intro s rest h
  simp only [bind_eq_ok_iff] at h
  obtain ⟨colon, mid, hexpect, names, mid', hnames, h⟩ := h
  obtain ⟨rfl, rfl⟩ := of_pure_eq_ok h
  obtain ⟨rfl, hcolon⟩ := of_expect_eq_ok hexpect
  exact ⟨.accept hkeyword hcolon (acceptNames_accept hnames), Stmt.closes_of_closed rfl rfl _⟩

theorem choose_accepts (ih : AcceptsStmt n) (hkeyword : keyword.is .kung = true) :
    Ensures (do
      let x ← condition n
      let body ← block n inFn false
      let others ← elseIfs n inFn
      let otherwise ← elseBlock n inFn others.isEmpty
      pure (Stmt.choose ⟨x, body⟩ others otherwise)) e ts (IsStatement inFn (keyword :: ts)) := by
  intro s rest h
  simp only [bind_eq_ok_iff] at h
  obtain ⟨x, mid, hx, body, mid', hbody, others, mid'', hothers, otherwise, mid₃, helse, h⟩ := h
  obtain ⟨rfl, rfl⟩ := of_pure_eq_ok h
  obtain ⟨left, right, inner, rfl, hleft, hx, hright⟩ := condition_accepts hx
  have hfirst : Phrase.Derives inFn (.branch ⟨x, body⟩) (left :: inner) mid' :=
    .branch hleft hx hright (ih.block hbody).1
  refine ⟨?_, Stmt.closes_of_closed rfl rfl _⟩
  rcases ih.elseBlock helse with
    ⟨rfl, rfl⟩ | ⟨keyword', last, inner', rfl, hsome, rfl, hwala, hlast⟩
  · exact .choose hkeyword hfirst (ih.elseIfs hothers)
  · refine .chooseElse hkeyword hfirst (ih.elseIfs hothers) ?_ hwala hlast
    rintro rfl
    cases hsome

theorem whileLoop_accepts (ih : AcceptsStmt n) (hkeyword : keyword.is .samtang = true) :
    Ensures (do
      let _ ← expect .leftParen .afterSamtang
      let x ← assignment n
      let _ ← expect .rightParen .afterCondition
      let body ← block n inFn false
      pure (Stmt.whileLoop x body)) e ts (IsStatement inFn (keyword :: ts)) := by
  intro s rest h
  simp only [bind_eq_ok_iff] at h
  obtain ⟨left, mid, hl, x, mid', hx, right, mid'', hr, body, mid₃, hbody, h⟩ := h
  obtain ⟨rfl, rfl⟩ := of_pure_eq_ok h
  obtain ⟨rfl, hleft⟩ := of_expect_eq_ok hl
  obtain ⟨rfl, hright⟩ := of_expect_eq_ok hr
  exact ⟨.whileLoop hkeyword hleft ((accepts n).assignment hx).1 hright (ih.block hbody).1,
    Stmt.closes_of_closed rfl rfl _⟩

theorem forLoop_accepts (ih : AcceptsStmt n) (hkeyword : keyword.is .alangSa = true) :
    Ensures (do
      let _ ← expect .leftParen .afterAlangSa
      let init ← loopInit n
      let _ ← expect .comma .afterLoopInitializer
      let x ← assignment n
      let _ ← expect .comma .afterLoopCondition
      let step ← increment
      let _ ← expect .rightParen .afterLoopIncrement
      let body ← block n inFn false
      pure (Stmt.forLoop init x step body)) e ts (IsStatement inFn (keyword :: ts)) := by
  intro s rest h
  simp only [bind_eq_ok_iff] at h
  obtain ⟨left, mid, hl, init, mid₁, hinit, comma, mid₂, hc, x, mid₃, hx, comma', mid₄, hc', step,
    mid₅, hstep, right, mid₆, hr, body, mid₇, hbody, h⟩ := h
  obtain ⟨rfl, rfl⟩ := of_pure_eq_ok h
  obtain ⟨rfl, hleft⟩ := of_expect_eq_ok hl
  obtain ⟨rfl, hcomma⟩ := of_expect_eq_ok hc
  obtain ⟨rfl, hcomma'⟩ := of_expect_eq_ok hc'
  obtain ⟨rfl, hright⟩ := of_expect_eq_ok hr
  refine ⟨?_, Stmt.closes_of_closed rfl rfl _⟩
  exact .forLoop hkeyword hleft (loopInit_accepts hinit) hcomma ((accepts n).assignment hx).1
    hcomma' (increment_accepts hstep) hright (ih.block hbody).1

theorem ret_accepts (hkeyword : keyword.is .iuli = true) :
    Ensures (do
      let value ← returnValue n
      pure (Stmt.ret keyword value)) e ts (IsStatement true (keyword :: ts)) := by
  intro s rest h
  obtain ⟨value, mid, hvalue, h⟩ := bind_eq_ok_iff.mp h
  obtain ⟨rfl, rfl⟩ := of_pure_eq_ok h
  exact returnValue_accepts hkeyword hvalue

theorem blockStmt_accepts (ih : AcceptsStmt n) (hkeyword : keyword.is .pundok = true) :
    Ensures (do
      let body ← braced n inFn false
      pure (Stmt.block body)) e ts (IsStatement inFn (keyword :: ts)) := by
  intro s rest h
  obtain ⟨body, mid, hbody, h⟩ := bind_eq_ok_iff.mp h
  obtain ⟨rfl, rfl⟩ := of_pure_eq_ok h
  exact ⟨.blockStatement (ih.braced hbody hkeyword).1, Stmt.closes_of_closed rfl rfl _⟩

end Kinds

theorem statement_accepts (ih : AcceptsStmt n) {inFn : Bool} :
    Ensures (statement (n + 1) inFn) e ts (IsStatement inFn ts) := by
  rw [Grammar.statement]
  cases ts with
  | nil => exact exprStmt_accepts
  | cons t ts' =>
    refine ensures_peek ?_
    simp only [List.head?_cons]
    -- The kind of the first token decides on the kind of statement.
    split
    case h_1 hkind => -- IPAKITA
      exact ensures_skip (display_accepts (Token.is_iff.mpr hkind))
    case h_2 hkind => -- DAWAT
      exact ensures_skip (accept_accepts (Token.is_iff.mpr hkind))
    case h_3 hkind => -- KUNG
      exact ensures_skip (choose_accepts ih (Token.is_iff.mpr hkind))
    case h_4 hkind => -- SAMTANG
      exact ensures_skip (whileLoop_accepts ih (Token.is_iff.mpr hkind))
    case h_5 hkind => -- ALANG SA
      exact ensures_skip (forLoop_accepts ih (Token.is_iff.mpr hkind))
    case h_6 hkind => -- IULI
      cases inFn with
      | true => exact ensures_skip (ret_accepts (Token.is_iff.mpr hkind))
      | false =>
        intro s rest h
        cases h
    case h_7 hkind => -- PUNDOK
      exact ensures_skip (blockStmt_accepts ih (Token.is_iff.mpr hkind))
    case h_8 => -- BUHAT
      intro s rest h
      cases h
    case h_9 => exact exprStmt_accepts

/-- **What the parsers of statements accept is derived by the grammar.** -/
theorem acceptsStmt (n : Nat) : AcceptsStmt n := by
  induction n with
  | zero =>
    constructor <;> intros
    case items h _ => cases h
    case statements h _ => cases h
    case statement h => cases h
    case elseIfs h => cases h
    case elseBlock h => cases h
    case block h => cases h
    case braced h _ _ => cases h
  | succ n ih =>
    exact ⟨items_accept ih, statements_accept ih, fun h => statement_accepts ih _ _ h,
      elseIfs_accept ih, elseBlock_accepts ih, block_accepts ih,
      fun h _ hkeyword => braced_accepts ih h hkeyword⟩

/-! ## Programs -/

theorem params_accept {count : Nat} {ps : List Param} (h : params n count e ts = .ok ps rest) :
    Params ps ts rest ∧ count + ps.length ≤ 255 := by
  induction n generalizing ts ps count with
  | zero => cases h
  | succ n ih =>
    rw [params] at h
    split at h
    · cases h
    · rename_i hcount
      have hroom : count < 255 := Nat.lt_of_not_le hcount
      simp only [bind_eq_ok_iff] at h
      obtain ⟨ty, mid, hty, name, mid', hident, o, mid'', ho, h⟩ := h
      obtain ⟨t, rfl, ht⟩ := of_ty_eq_ok hty
      obtain ⟨rfl, hname⟩ := of_identifier_eq_ok hident
      rcases of_take?_eq_ok ho with ⟨rfl, rfl, -⟩ | ⟨comma, rfl, rfl, hcomma⟩
      · obtain ⟨rfl, rfl⟩ := of_pure_eq_ok h
        exact ⟨.last ht hname, hroom⟩
      · obtain ⟨more, mid₃, hmore, h⟩ := bind_eq_ok_iff.mp h
        obtain ⟨rfl, rfl⟩ := of_pure_eq_ok h
        obtain ⟨hm, hfew⟩ := ih hmore
        refine ⟨.more ht hname (any_singleton ▸ hcomma) hm, ?_⟩
        rw [List.length_cons]
        omega

theorem returnTy_accepts {o : Option Ty} (h : ty? e ts = .ok o rest) : ReturnTy o ts rest := by
  unfold ty? at h
  split at h
  · cases h
    exact .none
  · split at h
    · rename_i hty
      cases h
      exact .some (ty?_eq_some_iff.mp hty)
    · cases h
      exact .none

theorem paramList_accepts {left right : Token} {ps : List Param}
    (hleft : left.is .leftParen = true)
    (h : unlessNext .rightParen [] (params n 0) e ts = .ok ps (right :: rest))
    (hright : right.is .rightParen = true) : ParamList ps (left :: ts) rest := by
  rcases of_unlessNext_eq_ok h with ⟨rfl, rfl, -⟩ | hps
  · exact .empty hleft hright
  · obtain ⟨hps, hfew⟩ := params_accept hps
    exact .some hleft hps hright (by omega)

/-- A function is declared with what was parsed; with a return type its body ends with a return. -/
theorem of_declared_eq_ok {name : Token} {ps : List Param} {body : List Stmt} {o : Option Ty}
    {decl : FunDecl} (h : declared name ps body o e ts = .ok decl rest) :
    decl = ⟨name, ps, body, o⟩ ∧ rest = ts ∧
      (o ≠ none → ∃ s, body.getLast? = some s ∧ s.isRet = true) := by
  cases o with
  | none =>
    cases h
    exact ⟨rfl, rfl, fun hne => absurd rfl hne⟩
  | some ty =>
    simp only [declared] at h
    split at h
    · rename_i hends
      cases h
      exact ⟨rfl, rfl, fun _ => (Option.any_eq_true _ _).mp hends⟩
    · cases h

theorem function_accepts {decl : FunDecl} (h : function n e ts = .ok decl rest) {keyword : Token}
    (hkeyword : keyword.is .buhat = true) : Function decl (keyword :: ts) rest := by
  simp only [function, bind_eq_ok_iff] at h
  obtain ⟨o, mid, hty, name, mid₁, hident, left, mid₂, hl, ps, mid₃, hps, right, mid₄, hr, body,
    mid₅, hbody, h⟩ := h
  obtain ⟨rfl, hname⟩ := of_identifier_eq_ok hident
  obtain ⟨rfl, hleft⟩ := of_expect_eq_ok hl
  obtain ⟨rfl, hright⟩ := of_expect_eq_ok hr
  obtain ⟨hbody, hlast⟩ := (acceptsStmt n).block hbody
  obtain ⟨rfl, rfl, hends⟩ := of_declared_eq_ok h
  exact .mk hkeyword (returnTy_accepts hty) hname (paramList_accepts hleft hps hright) hbody
    (hlast rfl) hends

theorem functions_accept {fs : List Stmt} (h : functions n e ts = .ok fs rest) :
    Functions fs ts rest := by
  induction n generalizing ts fs with
  | zero => cases h
  | succ n ih =>
    simp only [functions, bind_eq_ok_iff] at h
    obtain ⟨o, mid, ho, h⟩ := h
    rcases of_take?_eq_ok ho with ⟨rfl, rfl, -⟩ | ⟨keyword, rfl, rfl, hkeyword⟩
    · obtain ⟨rfl, rfl⟩ := of_pure_eq_ok h
      exact .none
    · simp only [bind_eq_ok_iff] at h
      obtain ⟨decl, mid', hdecl, fs', mid'', hfs, h⟩ := h
      obtain ⟨rfl, rfl⟩ := of_pure_eq_ok h
      exact .more (function_accepts hdecl (any_singleton ▸ hkeyword)) (ih hfs)

theorem finish_accepts :
    Ensures finish e ts fun _ _ => ∀ t ∈ ts.head?, t.kind.isEof = true := by
  unfold finish
  cases ts with
  | nil => exact fun _ _ _ _ ht => nomatch ht
  | cons t ts' =>
    refine ensures_peekKind ?_
    simp only [List.head?_cons, Option.map_some]
    split <;> intro u rest h <;> cases h
    · rename_i hnone
      cases hnone
    · rename_i heof
      intro u hu
      cases hu
      simpa using heof

/-- What is accepted in front of the first end token is all of it. -/
theorem program_accepts {tokens : List Token} {p : Program}
    (h : program n e (body tokens) = .ok p rest) : Derives p (body tokens) := by
  have hbody : ∀ t ∈ body tokens, t.kind.isEof = false := fun t ht => by
    simpa using List.mem_takeWhile_imp ht
  simp only [program, bind_eq_ok_iff] at h
  obtain ⟨fs, mid, hfs, sugod, mid₁, hs, ss, mid₂, hss, katapusan, mid₃, hk, _, mid₄, hfinish,
    h⟩ := h
  obtain ⟨rfl, rfl⟩ := of_pure_eq_ok h
  obtain ⟨rfl, hsugod⟩ := of_expect_eq_ok hs
  obtain ⟨rfl, hkatapusan⟩ := of_expect_eq_ok hk
  have hfs := functions_accept hfs
  have hitems := ((acceptsStmt n).items hss fun hin => nomatch hin).1
  have hsuffix : mid₃ <:+ body tokens :=
    ((List.suffix_cons katapusan mid₃).trans (hitems.inner.suffix.trans
      (List.suffix_cons sugod mid₁))).trans hfs.inner.suffix
  -- The input ends behind `KATAPUSAN`, and in front of the first end token it ends with the list.
  obtain rfl : mid₃ = [] := by
    have hend := finish_accepts _ _ hfinish
    cases mid₃ with
    | nil => rfl
    | cons t mid₃ =>
      have hno := hbody t (hsuffix.subset (List.mem_cons_self ..))
      exact absurd (hend t rfl) (by simp [hno])
  exact .mk hfs hsugod hitems hkatapusan

/-- **The parser accepts only programs of the grammar, and uses every token once.** If some tokens
are accepted, those in front of the first end token are the tree written out. Exactly one of them is
`SUGOD` and exactly one, the last, is `KATAPUSAN`. -/
theorem accepted_derives (tokens : List Token) (p : Program) (h : parse tokens = .ok p) :
    Derives p (body tokens) ∧ (body tokens).countP (Token.is .sugod) = 1 ∧
      (body tokens).countP (Token.is .katapusan) = 1 ∧
      ∃ t, (body tokens).getLast? = some t ∧ t.is .katapusan = true := by
  obtain ⟨rest, hprogram⟩ := parse_eq_ok_iff.mp h
  have hderives := program_accepts hprogram
  exact ⟨hderives, hderives.frame⟩

/-- The small program is accepted, whatever stands behind the end token. -/
theorem accepted_derives_doubling :
    parse (doublingTokens ++ [⟨.eof, "", 4⟩, written .sugod 5]) = .ok doubling ∧
      Derives doubling doublingTokens ∧ doublingTokens.countP (Token.is .sugod) = 1 :=
  have hparse : parse (doublingTokens ++ [⟨.eof, "", 4⟩, written .sugod 5]) = .ok doubling := rfl
  have haccepted := accepted_derives _ doubling hparse
  ⟨hparse, haccepted.1, haccepted.2.1⟩

end Grammar

end Sugod
