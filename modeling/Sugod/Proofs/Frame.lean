import Sugod.Proofs.Follow

/-!
# The words around a program

`SUGOD` and `KATAPUSAN` stand around the list of a program and nowhere else, and the end token is
behind it. So a program has one of each of the two words, `KATAPUSAN` is its last token
(`Derives.frame`), and it has no end token (`Derives.isEof_eq_false`).

`Inner ts rest` says that none of the three stands among the tokens of `ts` that are in front of
`rest`. Every phrase below the program itself is inner.
-/

set_option autoImplicit false

namespace Sugod

/-- Whether a token is one of the words around a program or the end token. -/
def Token.isFrame (t : Token) : Bool :=
  t.is .sugod || t.is .katapusan || t.kind.isEof

namespace Grammar

/-- The tokens end with `rest`, and there is no word around a program and no end token in front of
it. -/
def Inner (ts rest : List Token) : Prop :=
  ∃ used, ts = used ++ rest ∧ ∀ t ∈ used, t.isFrame = false

namespace Inner

variable {ts mid rest : List Token} {t : Token}

theorem refl (ts : List Token) : Inner ts ts :=
  ⟨[], rfl, fun _ h => nomatch h⟩

theorem trans (h : Inner ts mid) (h' : Inner mid rest) : Inner ts rest := by
  obtain ⟨used, rfl, hused⟩ := h
  obtain ⟨used', rfl, hused'⟩ := h'
  refine ⟨used ++ used', (List.append_assoc ..).symm, fun t ht => ?_⟩
  rcases List.mem_append.mp ht with ht | ht
  · exact hused t ht
  · exact hused' t ht

theorem step (ht : t.isFrame = false) (h : Inner ts rest) : Inner (t :: ts) rest := by
  obtain ⟨used, rfl, hused⟩ := h
  refine ⟨t :: used, rfl, fun u hu => ?_⟩
  rcases List.mem_cons.mp hu with rfl | hu
  · exact ht
  · exact hused u hu

theorem mark {m : Mark} (hm : m ≠ .sugod ∧ m ≠ .katapusan) (ht : t.is m = true)
    (h : Inner ts rest) : Inner (t :: ts) rest := by
  refine step ?_ h
  rw [Token.is_iff] at ht
  simp [Token.isFrame, Token.is, ht, Kind.is, Kind.isEof, hm]

theorem name (ht : t.IsName) (h : Inner ts rest) : Inner (t :: ts) rest := by
  refine step ?_ h
  obtain ⟨name, hname⟩ := ht
  simp [Token.isFrame, Token.is, hname, Kind.is, Kind.isEof]

theorem ty {ty : Ty} (ht : t.is (.ty ty) = true) (h : Inner ts rest) : Inner (t :: ts) rest :=
  mark (m := .ty ty) ⟨nofun, nofun⟩ ht h

/-- In front of `rest` there are as many words around a program as in all the tokens. -/
theorem countP_eq {m : Mark} (hm : m = .sugod ∨ m = .katapusan) (h : Inner ts rest) :
    ts.countP (Token.is m) = rest.countP (Token.is m) := by
  obtain ⟨used, rfl, hused⟩ := h
  have hnone : used.countP (Token.is m) = 0 := by
    refine List.countP_eq_zero.mpr fun t ht his => ?_
    have hframe := hused t ht
    rcases hm with rfl | rfl <;> simp [Token.isFrame, his] at hframe
  rw [List.countP_append, hnone, Nat.zero_add]

/-- If there is no end token in `rest`, there is none at all. -/
theorem isEof_eq_false (h : Inner ts rest) (hrest : ∀ t ∈ rest, t.kind.isEof = false) :
    ∀ t ∈ ts, t.kind.isEof = false := by
  obtain ⟨used, rfl, hused⟩ := h
  intro t ht
  rcases List.mem_append.mp ht with ht | ht
  · have hframe := hused t ht
    rw [Token.isFrame, Bool.or_eq_false_iff] at hframe
    exact hframe.2
  · exact hrest t ht

theorem suffix (h : Inner ts rest) : rest <:+ ts := by
  obtain ⟨used, rfl, -⟩ := h
  exact List.suffix_append used rest

end Inner

/-! ## Phrases are inner -/

/-- The words around a program do not bind, so they are no operators. -/
theorem Operators.isFrame_eq_false {l : Level} {marks : List Mark} {next : Rank}
    {node : Expr → Token → Expr → Expr} (row : Operators l marks next node) {t : Token}
    (ht : marks.any t.is = true) : t.isFrame = false := by
  have hbinding : t.binding ≠ 0 := by
    rw [(row.any_iff t).mp ht]
    have := l.binding_bounds
    omega
  rw [Bool.eq_false_iff]
  intro hframe
  rw [Token.isFrame, Bool.or_eq_true, Bool.or_eq_true, Kind.isEof_iff] at hframe
  apply hbinding
  rcases hframe with (his | his) | heof
  · exact Token.binding_of_is his
  · exact Token.binding_of_is his
  · simp only [Token.binding, heof]

variable {ts rest : List Token}

theorem ExprPhrase.Derives.inner {phrase : ExprPhrase} (h : phrase.Derives ts rest) :
    Inner ts rest := by
  induction h with
  | assign hname hequals _ ih => exact .name hname (.mark (by decide) hequals ih)
  | operator row _ hop _ ih ih' => exact ih.trans (.step (row.isFrame_eq_false hop) ih')
  | signed hop _ ih =>
    rcases hop with hop | hop | hop <;> exact .mark (by decide) hop ih
  | call _ hleft _ hparen _ ih ih' =>
    exact ih.trans (.mark (by decide) hleft (ih'.trans (.mark (by decide) hparen (.refl _))))
  | callEmpty _ hleft hparen ih =>
    exact ih.trans (.mark (by decide) hleft (.mark (by decide) hparen (.refl _)))
  | argument _ hcomma _ ih ih' => exact ih.trans (.mark (by decide) hcomma ih')
  | literal hv =>
    refine .step ?_ (.refl _)
    generalize hk : Token.kind _ = kind at hv
    cases hv <;> simp [Token.isFrame, Token.is, hk, Kind.is, Kind.isEof]
  | var hname => exact .name hname (.refl _)
  | grouping hleft _ hright ih =>
    exact .mark (by decide) hleft (ih.trans (.mark (by decide) hright (.refl _)))
  | unassigned _ ih | operand _ _ ih | unsigned _ ih | uncalled _ ih | lastArgument _ ih => exact ih

theorem Declarator.inner {ty : Ty} {mutable : Bool} {d : Stmt}
    (h : Declarator ty mutable d ts rest) : Inner ts rest := by
  cases h with
  | bare hname => exact .name hname (.refl _)
  | init hname hequals he => exact .name hname (.mark (by decide) hequals he.inner)

theorem Declarators.inner {ty : Ty} {mutable : Bool} {ds : List Stmt}
    (h : Declarators ty mutable ds ts rest) : Inner ts rest := by
  induction h with
  | last hd => exact hd.inner
  | more hd hcomma _ ih => exact hd.inner.trans (.mark (by decide) hcomma ih)

theorem DeclaringWord.inner {mutable : Bool} {t : Token} (ht : DeclaringWord mutable t)
    (h : Inner ts rest) : Inner (t :: ts) rest := by
  cases mutable <;> exact .mark (by decide) ht h

theorem Declarations.inner {ds : List Stmt} (h : Declarations ds ts rest) : Inner ts rest := by
  induction h with
  | none => exact .refl _
  | more hkeyword hty hds _ ih => exact hkeyword.inner (.ty hty (hds.inner.trans ih))

theorem Names.inner {names : List Token} (h : Names names ts rest) : Inner ts rest := by
  induction h with
  | last hname => exact .name hname (.refl _)
  | more hname hcomma _ ih => exact .name hname (.mark (by decide) hcomma ih)

theorem LoopInit.inner {init : Stmt} (h : LoopInit init ts rest) : Inner ts rest := by
  cases h with
  | declare hkeyword hty hd => exact hkeyword.inner (.ty hty hd.inner)
  | assign hname hequals he => exact .name hname (.mark (by decide) hequals he.inner)

theorem Increment.inner {step : Expr} (h : Increment step ts rest) : Inner ts rest := by
  cases h with
  | up hname hsign hsign' =>
    exact .name hname (.mark (by decide) hsign (.mark (by decide) hsign' (.refl _)))
  | down hname hsign hsign' =>
    exact .name hname (.mark (by decide) hsign (.mark (by decide) hsign' (.refl _)))

theorem Phrase.Derives.inner {inFn : Bool} {phrase : Phrase} (h : phrase.Derives inFn ts rest) :
    Inner ts rest := by
  induction h with
  | items hds _ _ ih => exact hds.inner.trans ih
  | noStatement | noElseIf => exact .refl _
  | statement _ _ ih ih' => exact ih.trans ih'
  | display hkeyword hcolon he =>
    exact .mark (by decide) hkeyword (.mark (by decide) hcolon he.inner)
  | accept hkeyword hcolon hnames =>
    exact .mark (by decide) hkeyword (.mark (by decide) hcolon hnames.inner)
  | choose hkeyword _ _ ih ih' => exact .mark (by decide) hkeyword (ih.trans ih')
  | chooseElse hkeyword _ _ _ hkeyword' _ ih ih' ih'' =>
    exact .mark (by decide) hkeyword (ih.trans (ih'.trans (.mark (by decide) hkeyword' ih'')))
  | whileLoop hkeyword hleft he hright _ ih =>
    exact .mark (by decide) hkeyword (.mark (by decide) hleft
      (he.inner.trans (.mark (by decide) hright ih)))
  | forLoop hkeyword hleft hinit hcomma he hcomma' hstep hright _ ih =>
    have hhead := hstep.inner.trans (.mark (by decide) hright ih)
    exact .mark (by decide) hkeyword (.mark (by decide) hleft (hinit.inner.trans
      (.mark (by decide) hcomma (he.inner.trans (.mark (by decide) hcomma' hhead)))))
  | blockStatement _ ih => exact ih
  | bareRet _ hkeyword => exact .mark (by decide) hkeyword (.refl _)
  | ret _ hkeyword he => exact .mark (by decide) hkeyword he.inner
  | expr he => exact he.inner
  | branch hleft he hright _ ih =>
    exact .mark (by decide) hleft (he.inner.trans (.mark (by decide) hright ih))
  | elseIf hkeyword _ _ ih ih' => exact .mark (by decide) hkeyword (ih.trans ih')
  | block hkeyword hleft _ hright ih =>
    exact .mark (by decide) hkeyword (.mark (by decide) hleft
      (ih.trans (.mark (by decide) hright (.refl _))))

theorem Params.inner {ps : List Param} (h : Params ps ts rest) : Inner ts rest := by
  induction h with
  | last hty hname => exact .ty hty (.name hname (.refl _))
  | more hty hname hcomma _ ih => exact .ty hty (.name hname (.mark (by decide) hcomma ih))

theorem ParamList.inner {ps : List Param} (h : ParamList ps ts rest) : Inner ts rest := by
  cases h with
  | empty hleft hright => exact .mark (by decide) hleft (.mark (by decide) hright (.refl _))
  | some hleft hps hright =>
    exact .mark (by decide) hleft (hps.inner.trans (.mark (by decide) hright (.refl _)))

theorem Function.inner {decl : FunDecl} (h : Function decl ts rest) : Inner ts rest := by
  cases h with
  | mk hkeyword hty hname hps hbody =>
    have hbehind := Inner.name hname (hps.inner.trans hbody.inner)
    cases hty with
    | none => exact .mark (by decide) hkeyword hbehind
    | some hty => exact .mark (by decide) hkeyword (.ty hty hbehind)

theorem Functions.inner {fs : List Stmt} (h : Functions fs ts rest) : Inner ts rest := by
  induction h with
  | none => exact .refl _
  | more hf _ ih => exact hf.inner.trans ih

/-- **A program has one `SUGOD` and one `KATAPUSAN`, which is its last token.** -/
theorem Derives.frame {p : Program} {ts : List Token} (h : Derives p ts) :
    ts.countP (Token.is .sugod) = 1 ∧ ts.countP (Token.is .katapusan) = 1 ∧
      ∃ t, ts.getLast? = some t ∧ t.is .katapusan = true := by
  obtain ⟨hfs, hsugod, hss, hkatapusan⟩ := h
  rename_i fs sugod ss katapusan mid
  have hsugod' : katapusan.is .sugod = false := Token.is_eq_false_of_is hkatapusan (by decide)
  have hkatapusan' : sugod.is .katapusan = false := Token.is_eq_false_of_is hsugod (by decide)
  refine ⟨?_, ?_, katapusan, ?_, hkatapusan⟩
  · rw [hfs.inner.countP_eq (.inl rfl), List.countP_cons, hss.inner.countP_eq (.inl rfl)]
    simp [hsugod, hsugod']
  · rw [hfs.inner.countP_eq (.inr rfl), List.countP_cons, hss.inner.countP_eq (.inr rfl)]
    simp [hkatapusan, hkatapusan']
  · have hsuffix : [katapusan] <:+ ts :=
      (hss.inner.suffix.trans (List.suffix_cons sugod mid)).trans hfs.inner.suffix
    obtain ⟨used, rfl⟩ := hsuffix
    exact List.getLast?_concat

/-- A mark is not the end token. -/
theorem isEof_eq_false_of_is {t : Token} {m : Mark} (h : t.is m = true) :
    t.kind.isEof = false := by
  rw [Token.is_iff.mp h]
  rfl

/-- No token of a program is the end token. -/
theorem Derives.isEof_eq_false {p : Program} {ts : List Token} (h : Derives p ts) :
    ∀ t ∈ ts, t.kind.isEof = false := by
  obtain ⟨hfs, hsugod, hss, hkatapusan⟩ := h
  refine hfs.inner.isEof_eq_false (List.forall_mem_cons.mpr ⟨isEof_eq_false_of_is hsugod, ?_⟩)
  exact hss.inner.isEof_eq_false
    (List.forall_mem_singleton.mpr (isEof_eq_false_of_is hkatapusan))

end Grammar

end Sugod
