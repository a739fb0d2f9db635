import Sugod.Proofs.Written
import Sugod.Proofs.Regular

/-!
# Programs one behind the other

Statements have no terminator, so the end of a statement is found from the token behind it. The main
statement is `concatenation_parses`: if the tokens of two blocks are accepted, and the second one
declares no variables, then they are accepted one behind the other as the statements of the first
and then those of the second, exactly if no expression at the end of the first is followed by a
token that goes on with it (`Token.joins`).

`Movable` says that a phrase is derived from its own tokens in front of whatever stands behind them.
All phrases of the grammar are movable, which is what allows to put one block behind another.
-/

set_option autoImplicit false

namespace Sugod

/-- Whether a statement declares a variable. -/
def Stmt.isDeclare : Stmt → Bool
  | .declare _ _ _ _ => true
  | _ => false

/-- Whether a token that a statement begins with is read as going on with an expression in front of
it: as the parenthesis of a call, or as the sign of a sum or a difference. -/
def Token.joins (t : Token) : Bool :=
  t.is .leftParen || t.is .plus || t.is .minus

namespace Token

variable {t : Token}

/-- The first token of an expression goes on with another one exactly if the expression does. -/
theorem Begins.joins_eq {e : Expr} (h : t.Begins e) : t.joins = e.continues := by
  unfold joins Expr.continues
  rcases h with ⟨hnone, hatom⟩ | ⟨m, hlead, hkind, hm⟩
  · have hno : ∀ {m : Mark}, m ≠ .oo ∧ m ≠ .dili → t.is m = false :=
      Token.Begins.is_eq_false_of_atom hatom
    simp [hnone, hno]
  · rw [hlead]
    rcases hm with rfl | rfl | rfl | rfl <;> simp [Token.is, hkind, Kind.is]

/-- The first token of a statement goes on with an expression exactly if the statement does. -/
theorem BeginsStmt.joins_eq {s : Stmt} (h : t.BeginsStmt s) : t.joins = s.continues := by
  cases h with
  | @keyword m _ his hm hs =>
    have hno : ∀ k ∈ [Mark.leftParen, .plus, .minus], t.is k = false := by
      intro k hk
      refine Token.is_eq_false_of_is his ?_
      rintro rfl
      simp only [List.mem_cons, List.not_mem_nil, or_false] at hk
      rcases hk with rfl | rfl | rfl <;> simp at hm
    simp [joins, hs, hno]
  | expr he => exact he.joins_eq

end Token

namespace Grammar

/-! ## Phrases in front of other tokens -/

/-- The tokens in front of `rest` are a phrase, whatever stands behind them. -/
def Movable (X : List Token → List Token → Prop) (ts rest : List Token) : Prop :=
  ∃ used, ts = used ++ rest ∧ ∀ rest', X (used ++ rest') rest'

/-- A token, and behind it a phrase. -/
def Behind (t : Token) (X : List Token → List Token → Prop) (ts rest : List Token) : Prop :=
  ∃ mid, ts = t :: mid ∧ X mid rest

/-- A phrase, and behind it another one. -/
def Both (X Y : List Token → List Token → Prop) (ts rest : List Token) : Prop :=
  ∃ mid, X ts mid ∧ Y mid rest

namespace Movable

variable {X Y : List Token → List Token → Prop} {ts mid rest : List Token}

theorem refl (ts : List Token) : Movable Eq ts ts :=
  ⟨[], rfl, fun _ => rfl⟩

theorem map (h : Movable X ts rest) (hXY : ∀ {ts rest}, X ts rest → Y ts rest) :
    Movable Y ts rest := by
  obtain ⟨used, hts, hused⟩ := h
  exact ⟨used, hts, fun rest' => hXY (hused rest')⟩

theorem behind (t : Token) (h : Movable X ts rest) : Movable (Behind t X) (t :: ts) rest := by
  obtain ⟨used, rfl, hused⟩ := h
  exact ⟨t :: used, rfl, fun rest' => ⟨used ++ rest', rfl, hused rest'⟩⟩

theorem both (h : Movable X ts mid) (h' : Movable Y mid rest) : Movable (Both X Y) ts rest := by
  obtain ⟨used, rfl, hused⟩ := h
  obtain ⟨used', rfl, hused'⟩ := h'
  refine ⟨used ++ used', (List.append_assoc ..).symm, fun rest' => ?_⟩
  rw [List.append_assoc]
  exact ⟨used' ++ rest', hused _, hused' rest'⟩

/-- A single token. -/
theorem token (t : Token) : Movable (Behind t Eq) (t :: rest) rest :=
  (refl rest).behind t

end Movable

variable {ts mid rest : List Token}

theorem ExprPhrase.Derives.movable {phrase : ExprPhrase} (h : phrase.Derives ts rest) :
    Movable phrase.Derives ts rest := by
  induction h with
  | assign hname hequals _ ih =>
    refine ((ih.behind _).behind _).map ?_
    rintro _ _ ⟨_, rfl, _, rfl, hvalue⟩
    exact .assign hname hequals hvalue
  | unassigned _ ih => exact ih.map .unassigned
  | operator row _ hop _ ih ih' =>
    refine (ih.both (ih'.behind _)).map ?_
    rintro _ _ ⟨_, hleft, _, rfl, hright⟩
    exact .operator row hleft hop hright
  | operand row _ ih => exact ih.map (.operand row)
  | signed hop _ ih =>
    refine (ih.behind _).map ?_
    rintro _ _ ⟨_, rfl, he⟩
    exact .signed hop he
  | unsigned _ ih => exact ih.map .unsigned
  | call _ hleft _ hparen few ih ih' =>
    refine (ih.both ((ih'.both (.token _)).behind _)).map ?_
    rintro _ _ ⟨_, hcallee, _, rfl, _, hargs, _, rfl, rfl⟩
    exact .call hcallee hleft hargs hparen few
  | callEmpty _ hleft hparen ih =>
    refine (ih.both ((Movable.token _).behind _)).map ?_
    rintro _ _ ⟨_, hcallee, _, rfl, _, rfl, rfl⟩
    exact .callEmpty hcallee hleft hparen
  | uncalled _ ih => exact ih.map .uncalled
  | lastArgument _ ih => exact ih.map .lastArgument
  | argument _ hcomma _ ih ih' =>
    refine (ih.both (ih'.behind _)).map ?_
    rintro _ _ ⟨_, he, _, rfl, hmore⟩
    exact .argument he hcomma hmore
  | literal hv => exact ⟨[_], rfl, fun _ => .literal hv⟩
  | var hname => exact ⟨[_], rfl, fun _ => .var hname⟩
  | grouping hleft _ hright ih =>
    refine ((ih.both (.token _)).behind _).map ?_
    rintro _ _ ⟨_, rfl, _, he, _, rfl, rfl⟩
    exact .grouping hleft he hright

theorem Declarator.movable {ty : Ty} {mutable : Bool} {d : Stmt}
    (h : Declarator ty mutable d ts rest) : Movable (Declarator ty mutable d) ts rest := by
  cases h with
  | bare hname => exact ⟨[_], rfl, fun _ => .bare hname⟩
  | init hname hequals he =>
    refine ((he.movable.behind _).behind _).map ?_
    rintro _ _ ⟨_, rfl, _, rfl, he⟩
    exact .init hname hequals he

theorem Declarators.movable {ty : Ty} {mutable : Bool} {ds : List Stmt}
    (h : Declarators ty mutable ds ts rest) : Movable (Declarators ty mutable ds) ts rest := by
  induction h with
  | last hd => exact hd.movable.map .last
  | more hd hcomma _ ih =>
    refine (hd.movable.both (ih.behind _)).map ?_
    rintro _ _ ⟨_, hd, _, rfl, hmore⟩
    exact .more hd hcomma hmore

theorem Declarations.movable {ds : List Stmt} (h : Declarations ds ts rest) :
    Movable (Declarations ds) ts rest := by
  induction h with
  | none => exact (Movable.refl _).map fun heq => heq ▸ .none
  | more hkeyword hty hds _ ih =>
    refine (((hds.movable.both ih).behind _).behind _).map ?_
    rintro _ _ ⟨_, rfl, _, rfl, _, hds, hmore⟩
    exact .more hkeyword hty hds hmore

theorem Names.movable {names : List Token} (h : Names names ts rest) :
    Movable (Names names) ts rest := by
  induction h with
  | last hname => exact ⟨[_], rfl, fun _ => .last hname⟩
  | more hname hcomma _ ih =>
    refine ((ih.behind _).behind _).map ?_
    rintro _ _ ⟨_, rfl, _, rfl, hmore⟩
    exact .more hname hcomma hmore

theorem LoopInit.movable {init : Stmt} (h : LoopInit init ts rest) :
    Movable (LoopInit init) ts rest := by
  cases h with
  | declare hkeyword hty hd =>
    refine ((hd.movable.behind _).behind _).map ?_
    rintro _ _ ⟨_, rfl, _, rfl, hd⟩
    exact .declare hkeyword hty hd
  | assign hname hequals he =>
    refine ((he.movable.behind _).behind _).map ?_
    rintro _ _ ⟨_, rfl, _, rfl, he⟩
    exact .assign hname hequals he

theorem Increment.movable {step : Expr} (h : Increment step ts rest) :
    Movable (Increment step) ts rest := by
  cases h with
  | up hname hsign hsign' => exact ⟨[_, _, _], rfl, fun _ => .up hname hsign hsign'⟩
  | down hname hsign hsign' => exact ⟨[_, _, _], rfl, fun _ => .down hname hsign hsign'⟩

/-- **What a phrase derives does not depend on the tokens behind it.** -/
theorem Phrase.Derives.movable {inFn : Bool} {phrase : Phrase} (h : phrase.Derives inFn ts rest) :
    Movable (phrase.Derives inFn) ts rest := by
  induction h with
  | items hds _ follow ih =>
    refine (hds.movable.both ih).map ?_
    rintro _ _ ⟨_, hds, hss⟩
    exact .items hds hss follow
  | noStatement => exact (Movable.refl _).map fun heq => heq ▸ .noStatement
  | statement _ _ ih ih' =>
    refine (ih.both ih').map ?_
    rintro _ _ ⟨_, hs, hmore⟩
    exact .statement hs hmore
  | display hkeyword hcolon he =>
    refine ((he.movable.behind _).behind _).map ?_
    rintro _ _ ⟨_, rfl, _, rfl, he⟩
    exact .display hkeyword hcolon he
  | accept hkeyword hcolon hnames =>
    refine ((hnames.movable.behind _).behind _).map ?_
    rintro _ _ ⟨_, rfl, _, rfl, hnames⟩
    exact .accept hkeyword hcolon hnames
  | choose hkeyword _ _ ih ih' =>
    refine ((ih.both ih').behind _).map ?_
    rintro _ _ ⟨_, rfl, _, hfirst, hothers⟩
    exact .choose hkeyword hfirst hothers
  | chooseElse hkeyword _ _ notAlone hkeyword' _ ih ih' ih'' =>
    refine ((ih.both (ih'.both (ih''.behind _))).behind _).map ?_
    rintro _ _ ⟨_, rfl, _, hfirst, _, hothers, _, rfl, hbody⟩
    exact .chooseElse hkeyword hfirst hothers notAlone hkeyword' hbody
  | whileLoop hkeyword hleft he hright _ ih =>
    refine (((he.movable.both (ih.behind _)).behind _).behind _).map ?_
    rintro _ _ ⟨_, rfl, _, rfl, _, he, _, rfl, hbody⟩
    exact .whileLoop hkeyword hleft he hright hbody
  | forLoop hkeyword hleft hinit hcomma he hcomma' hstep hright _ ih =>
    have hhead := hstep.movable.both (ih.behind _)
    have hconds := hinit.movable.both ((he.movable.both (hhead.behind _)).behind _)
    refine ((hconds.behind _).behind _).map ?_
    rintro _ _ ⟨_, rfl, _, rfl, _, hinit, _, rfl, _, he, _, rfl, _, hstep, _, rfl, hbody⟩
    exact .forLoop hkeyword hleft hinit hcomma he hcomma' hstep hright hbody
  | blockStatement _ ih => exact ih.map .blockStatement
  | bareRet inside hkeyword => exact ⟨[_], rfl, fun _ => .bareRet inside hkeyword⟩
  | ret inside hkeyword he =>
    refine (he.movable.behind _).map ?_
    rintro _ _ ⟨_, rfl, he⟩
    exact .ret inside hkeyword he
  | expr he => exact he.movable.map .expr
  | branch hleft he hright _ ih =>
    refine ((he.movable.both (ih.behind _)).behind _).map ?_
    rintro _ _ ⟨_, rfl, _, he, _, rfl, hbody⟩
    exact .branch hleft he hright hbody
  | noElseIf => exact (Movable.refl _).map fun heq => heq ▸ .noElseIf
  | elseIf hkeyword _ _ ih ih' =>
    refine ((ih.both ih').behind _).map ?_
    rintro _ _ ⟨_, rfl, _, hb, hmore⟩
    exact .elseIf hkeyword hb hmore
  | block hkeyword hleft _ hright ih =>
    refine (((ih.both (.token _)).behind _).behind _).map ?_
    rintro _ _ ⟨_, rfl, _, rfl, _, hbody, _, rfl, rfl⟩
    exact .block hkeyword hleft hbody hright

/-! ## Statements behind statements -/

theorem Phrase.Derives.statements_append {inFn : Bool} {ss ss' : List Stmt}
    (h : Phrase.Derives inFn (.statements ss) ts mid)
    (h' : Phrase.Derives inFn (.statements ss') mid rest) :
    Phrase.Derives inFn (.statements (ss ++ ss')) ts rest := by
  induction ss generalizing ts with
  | nil =>
    cases h
    exact h'
  | cons s ss ih =>
    cases h with
    | statement hs hmore => exact .statement hs (ih hmore)

theorem Phrase.Derives.items_append {inFn : Bool} {p q : List Stmt}
    (h : Phrase.Derives inFn (.items p) ts mid)
    (h' : Phrase.Derives inFn (.statements q) mid rest)
    (follow : (p ++ q).IsChain Stmt.MayPrecede) :
    Phrase.Derives inFn (.items (p ++ q)) ts rest := by
  cases h with
  | @items ds ss _ _ _ hds hss =>
    rw [List.append_assoc] at follow ⊢
    exact .items hds (hss.statements_append h') follow

theorem Phrase.Derives.isChain {inFn : Bool} {p : List Stmt}
    (h : Phrase.Derives inFn (.items p) ts rest) : p.IsChain Stmt.MayPrecede := by
  cases h with
  | items _ _ follow => exact follow

/-- A list without declarations consists of statements. -/
theorem Phrase.Derives.statements_of_items {inFn : Bool} {q : List Stmt}
    (h : Phrase.Derives inFn (.items q) ts rest) (hq : ∀ s ∈ q, s.isDeclare = false) :
    Phrase.Derives inFn (.statements q) ts rest := by
  cases h with
  | @items ds ss _ _ _ hds hss =>
    have hnone : ds = [] := by
      refine List.eq_nil_iff_forall_not_mem.mpr fun d hd => ?_
      obtain ⟨name, ty, init, mutable, rfl⟩ := hds.eq_declare d hd
      exact Bool.noConfusion (hq _ (List.mem_append_left ss hd))
    subst hnone
    obtain rfl := hds.eq_of_nil
    exact hss

theorem parse_eq_ok_iff_derives {tokens : List Token} {p : Program} :
    parse tokens = .ok p ↔ Derives p (body tokens) := by
  rw [parse_eq_ok_iff]
  constructor
  · rintro ⟨rest, hprogram⟩
    exact program_accepts hprogram
  · intro h
    rcases h.reads (steps (body tokens)) (endLine tokens) with hok | hspent
    · exact ⟨[], hok⟩
    · exact absurd hspent (program_ne_spent _ _)

/-! ## Blocks in a list of tokens -/

/-- Tokens in front of the end token belong to the program. -/
theorem body_append {ts : List Token} (h : ∀ t ∈ ts, t.kind.isEof = false) (us : List Token) :
    body (ts ++ us) = ts ++ body us := by
  unfold body
  refine List.takeWhile_append_of_pos fun t ht => ?_
  rw [h t ht]
  rfl

/-- A program that begins with `SUGOD` has no functions. -/
theorem Derives.items {p : Program} {sugod : Token} (hsugod : sugod.is .sugod = true)
    (h : Derives p (sugod :: ts)) :
    ∃ katapusan, Phrase.Derives false (.items p) ts [katapusan] ∧
      katapusan.is .katapusan = true := by
  generalize hall : sugod :: ts = all at h
  cases h with
  | @mk fs sugod' ss katapusan _ mid hfs hsugod' hss hkatapusan =>
    cases hfs with
    | none =>
      cases hall
      exact ⟨katapusan, hss, hkatapusan⟩
    | more hf _ =>
      cases hf with
      | mk hkeyword =>
        cases hall
        have hno : sugod.is .buhat = false := Token.is_eq_false_of_is hsugod (by decide)
        rw [hno] at hkeyword
        cases hkeyword

/-- What is derived in front of a last `KATAPUSAN` is derived in front of anything else. -/
theorem items_in_front {p : Program} {katapusan last : Token} {tail : List Token}
    (hkatapusan : katapusan.is .katapusan = true)
    (h : Phrase.Derives false (.items p) (ts ++ katapusan :: tail) [last]) (rest : List Token) :
    Phrase.Derives false (.items p) (ts ++ rest) rest := by
  obtain ⟨used, hts, hused⟩ := h.movable
  obtain ⟨used', hts', hframe⟩ := h.inner
  obtain rfl : used = used' := List.append_cancel_right (hts.symm.trans hts')
  have hclean : katapusan ∉ used := by
    intro hmem
    have hno := hframe katapusan hmem
    simp [Token.isFrame, hkatapusan] at hno
  -- The first `KATAPUSAN` is the last token, so the tokens in front of both are the same.
  have hsame : ts = used := by
    rcases List.append_eq_append_iff.mp hts with ⟨more, rfl, hmore⟩ | ⟨more, rfl, hmore⟩
    · cases more with
      | nil => exact (List.append_nil ts).symm
      | cons t more =>
        obtain rfl : katapusan = t := (List.cons.inj hmore).1
        exact absurd (List.mem_append_right ts List.mem_cons_self) hclean
    · cases more with
      | nil => exact List.append_nil used
      | cons t more => simp at hmore
  rw [hsame]
  exact hused rest

theorem eq_of_body_eq_cons {t u : Token} {us : List Token} (h : body (t :: ts) = u :: us) :
    t = u := by
  unfold body at h
  rw [List.takeWhile_cons] at h
  split at h
  · exact (List.cons.inj h).1
  · cases h

/-- `KATAPUSAN` goes on with nothing. -/
theorem joins_of_katapusan {t : Token} (h : t.is .katapusan = true) : t.joins = false := by
  have hno : ∀ {m : Mark}, Mark.katapusan ≠ m → t.is m = false := Token.is_eq_false_of_is h
  simp [Token.joins, hno]

/-- The first token of a block goes on with an expression exactly if its first statement does. -/
theorem joins_head_eq {q : List Stmt} {katapusan last : Token} {tail : List Token}
    (hkatapusan : katapusan.is .katapusan = true) (hlast : last.is .katapusan = true)
    (h : Phrase.Derives false (.statements q) (body (ts ++ katapusan :: tail)) [last]) :
    ts.head?.any Token.joins = q.head?.any Stmt.continues := by
  cases q with
  | nil =>
    generalize hbody : body (ts ++ katapusan :: tail) = us at h
    cases h
    cases ts with
    | nil => rfl
    | cons t ts =>
      obtain rfl : t = last := eq_of_body_eq_cons hbody
      exact joins_of_katapusan hlast
  | cons s q =>
    generalize hbody : body (ts ++ katapusan :: tail) = us at h
    cases h with
    | statement hs _ =>
      obtain ⟨t, ts', rfl, ht⟩ := hs.beginsStmt
      cases ts with
      | nil =>
        -- No statement begins with `KATAPUSAN`.
        obtain rfl : katapusan = t := eq_of_body_eq_cons hbody
        have hno : katapusan.is .katapusan = false := ht.is_eq_false (by simp)
        rw [hno] at hkatapusan
        cases hkatapusan
      | cons u ts =>
        obtain rfl : u = t := eq_of_body_eq_cons hbody
        exact ht.joins_eq

/-- Outside of functions, the last statement of a list may precede a statement unless that goes on
with an expression at its end. -/
theorem mayPrecede_iff {p : List Stmt} (h : Phrase.Derives false (.items p) ts rest) {s s' : Stmt}
    (hs : s ∈ p) : s.MayPrecede s' ↔ (s.endsWithExpr = true → s'.continues = false) := by
  refine ⟨fun hfollow => hfollow.apart, fun happart => ⟨?_, happart⟩⟩
  have hregular : ∀ s ∈ p, s.Regular (fun _ => False) false := h.regular
  cases hregular s hs with
  | ret inside => cases inside
  | _ => rfl

/-- The statements of two blocks may follow each other exactly if the expression at the end of the
first one, if there is one, is not gone on with by the second one. -/
theorem isChain_append_iff {p q : List Stmt} (hp : Phrase.Derives false (.items p) ts rest)
    (hq : q.IsChain Stmt.MayPrecede) :
    (p ++ q).IsChain Stmt.MayPrecede ↔
      ¬(p.getLast?.any Stmt.endsWithExpr = true ∧ q.head?.any Stmt.continues = true) := by
  rw [List.isChain_append]
  cases hlast : p.getLast? with
  | none => simp [hp.isChain, hq]
  | some s =>
    have hs : s ∈ p := List.mem_of_getLast? hlast
    cases q with
    | nil => simp [hp.isChain]
    | cons s' q => simp [hp.isChain, hq, mayPrecede_iff hp hs]

/-- Some tokens between `SUGOD` and `KATAPUSAN`, and what stands behind the program. -/
def enclosed (sugod katapusan : Token) (tail ts : List Token) : List Token :=
  sugod :: (ts ++ katapusan :: tail)

/-- **Blocks one behind the other.** Let two lists of tokens be accepted as the blocks of two
programs, where the first has no end token and the second declares no variables at its top. One
behind the other they are accepted as the statements of the first and then those of the second
exactly if the last statement of the first does not end with an expression, or the second does not
begin with a parenthesis or a sign, which would be read as going on with that expression. -/
theorem concatenation_parses (sugod katapusan : Token) (a b tail : List Token) (p q : Program)
    (hsugod : sugod.is .sugod = true) (hkatapusan : katapusan.is .katapusan = true)
    (hends : ∀ t ∈ a, t.kind.isEof = false)
    (ha : parse (enclosed sugod katapusan tail a) = .ok p)
    (hb : parse (enclosed sugod katapusan tail b) = .ok q)
    (hq : ∀ s ∈ q, s.isDeclare = false) :
    parse (enclosed sugod katapusan tail (a ++ b)) = .ok (p ++ q) ↔
      ¬(p.getLast?.any Stmt.endsWithExpr = true ∧ b.head?.any Token.joins = true) := by
  have hfirst : ∀ us, body (sugod :: us) = sugod :: body us :=
    body_append (List.forall_mem_singleton.mpr (isEof_eq_false_of_is hsugod))
  have hlast : body (katapusan :: tail) = katapusan :: body tail :=
    body_append (List.forall_mem_singleton.mpr (isEof_eq_false_of_is hkatapusan)) tail
  unfold enclosed at ha hb ⊢
  rw [parse_eq_ok_iff_derives, hfirst] at ha hb ⊢
  rw [body_append hends, hlast] at ha
  rw [List.append_assoc, body_append hends]
  obtain ⟨last, hp, -⟩ := ha.items hsugod
  obtain ⟨last', hitems, hlast'⟩ := hb.items hsugod
  have hstatements := hitems.statements_of_items hq
  rw [joins_head_eq hkatapusan hlast' hstatements, ← isChain_append_iff hp hitems.isChain]
  constructor
  · intro hboth
    obtain ⟨_, hpq, -⟩ := hboth.items hsugod
    exact hpq.isChain
  · intro hfollow
    have hpq := (items_in_front hkatapusan hp _).items_append hstatements hfollow
    show Derives ([] ++ (p ++ q)) _
    exact .mk .none hsugod hpq hlast'

/-- A declaration and an assignment behind it. -/
theorem concatenation_parses_assigning :
    parse (enclosed (written .sugod 1) (written .katapusan 2) [⟨.eof, "", 3⟩]
      [written .mugna 1, written (.ty .int) 1, named "x" 1, written .equal 1, numbered 1 1]) =
        .ok [.declare (named "x" 1) .int (some (.literal (.int 1) 1)) true] ∧
    parse (enclosed (written .sugod 1) (written .katapusan 2) [⟨.eof, "", 3⟩]
      [named "x" 2, written .equal 2, numbered 2 2]) =
        .ok [.expr (.assign (named "x" 2) (.literal (.int 2) 2))] ∧
    parse (enclosed (written .sugod 1) (written .katapusan 2) [⟨.eof, "", 3⟩]
      ([written .mugna 1, written (.ty .int) 1, named "x" 1, written .equal 1, numbered 1 1] ++
        [named "x" 2, written .equal 2, numbered 2 2])) =
      .ok ([.declare (named "x" 1) .int (some (.literal (.int 1) 1)) true] ++
        [.expr (.assign (named "x" 2) (.literal (.int 2) 2))]) := by
  have hends : ∀ t ∈ [written .mugna 1, written (.ty .int) 1, named "x" 1, written .equal 1,
      numbered 1 1], t.kind.isEof = false := by decide
  have hdeclare : ∀ s ∈ [Stmt.expr (.assign (named "x" 2) (.literal (.int 2) 2))],
      s.isDeclare = false := List.forall_mem_singleton.mpr rfl
  exact ⟨rfl, rfl, (concatenation_parses _ _ _ _ _ _ _ rfl rfl hends rfl rfl hdeclare).mpr
    fun h => Bool.noConfusion h.2⟩

/-- A name and a number in parentheses are two statements, but one behind the other they are a call;
and nothing is read behind an end token. -/
theorem concatenation_call :
    (parse (enclosed (written .sugod 1) (written .katapusan 1) [] [named "x" 1]) =
        .ok [.expr (.var (named "x" 1))] ∧
      parse (enclosed (written .sugod 1) (written .katapusan 1) []
        [written .leftParen 1, numbered 1 1, written .rightParen 1]) =
          .ok [.expr (.grouping (.literal (.int 1) 1))] ∧
      parse (enclosed (written .sugod 1) (written .katapusan 1) []
        ([named "x" 1] ++ [written .leftParen 1, numbered 1 1, written .rightParen 1])) ≠
          .ok ([.expr (.var (named "x" 1))] ++ [.expr (.grouping (.literal (.int 1) 1))])) ∧
    parse (enclosed (written .sugod 1) (written .katapusan 1) []
      [written .katapusan 1, ⟨.eof, "", 1⟩]) = .ok [] ∧
    parse (enclosed (written .sugod 1) (written .katapusan 1) []
      ([written .katapusan 1, ⟨.eof, "", 1⟩] ++ [named "x" 1])) ≠
        .ok ([] ++ [.expr (.var (named "x" 1))]) := by
  have hcall : parse (enclosed (written .sugod 1) (written .katapusan 1) []
      ([named "x" 1] ++ [written .leftParen 1, numbered 1 1, written .rightParen 1])) =
        .ok [.expr (.call (.var (named "x" 1)) (written .rightParen 1)
          [.literal (.int 1) 1])] := rfl
  have hended : parse (enclosed (written .sugod 1) (written .katapusan 1) []
      ([written .katapusan 1, ⟨.eof, "", 1⟩] ++ [named "x" 1])) = .ok [] := rfl
  refine ⟨⟨rfl, rfl, ?_⟩, rfl, ?_⟩
  · rw [hcall]
    intro h
    cases h
  · rw [hended]
    intro h
    cases h

end Grammar

end Sugod
