import Sugod.Tree
import Sugod.Grammar.Expression
import Mathlib.Data.List.Chain

/-!
# The grammar as a relation

What a program is, said without a parser. Each relation of this module stands for a nonterminal of
the grammar. It holds of a tree and two lists of tokens if the first list is the tree written out,
followed by the second list: `Expression e ts rest` says that `ts` starts with the expression `e`
and that `rest` is what is left behind it.

```
program     := function* "SUGOD" items "KATAPUSAN"
function    := "BUHAT" type? IDENT "(" (param ("," param)*)? ")" block
param       := type IDENT
block       := "PUNDOK" "{" items "}"
items       := declaration* statement*
declaration := ("MUGNA" | "PIRMI") type declarator ("," declarator)*
declarator  := IDENT ("=" expression)?
statement   := display | accept | if | while | for | block | return | expression
display     := "IPAKITA" ":" or
accept      := "DAWAT" ":" IDENT ("," IDENT)*
if          := "KUNG" branch ("KUNG DILI" branch)* ("KUNG WALA" block)?
branch      := "(" or ")" block
while       := "SAMTANG" "(" expression ")" block
for         := "ALANG SA" "(" for_init "," expression "," IDENT ("++" | "--") ")" block
for_init    := ("MUGNA" | "PIRMI") type declarator | IDENT "=" expression
return      := "IULI" expression?
expression  := assignment
assignment  := IDENT "=" assignment | or
or          := and ("O" and)*
and         := equality ("UG" equality)*
equality    := comparison (("==" | "<>") comparison)*
comparison  := term ((">" | ">=" | "<" | "<=") term)*
term        := factor (("+" | "-" | "&") factor)*
factor      := unary (("*" | "/" | "%") unary)*
unary       := ("!" | "-" | "+") unary | call
call        := primary ("(" (expression ("," expression)*)? ")")*
primary     := literal | IDENT | "(" expression ")"
```

Further rules restrict the trees. They stand at the production that they belong to:

* a call has at most 255 arguments and a function at most 255 parameters;
* `KUNG WALA` stands behind at least one `KUNG DILI`;
* `IULI` stands inside of functions only, which is what `inFn` says of a statement;
* in the list of a function's own body `IULI` is the last statement, and it is there if the function
  has a return type;
* statements have no terminator, so that not every statement may follow every other one
  (`Stmt.MayPrecede`).
-/

set_option autoImplicit false

namespace Sugod

/-- The mark that an expression begins with, if it does not begin with a name or a literal. -/
def Expr.leading? : Expr → Option Mark
  | .unary op _ =>
    match op.kind with
    | .mark m => some m
    | _ => none
  | .grouping _ => some .leftParen
  | .binary left _ _ => left.leading?
  | .logical left _ _ => left.leading?
  | .call callee _ _ => callee.leading?
  | _ => none

/-- Whether an expression behind another one would be read as its continuation: as the arguments of
a call, or as the second operand of a sum or a difference. -/
def Expr.continues (e : Expr) : Bool :=
  e.leading? = some .leftParen || e.leading? = some .plus || e.leading? = some .minus

namespace Stmt

/-- Whether a statement is an expression that would be read as the continuation of another one. -/
def continues : Stmt → Bool
  | .expr e => e.continues
  | _ => false

/-- Whether the last part of a statement is an expression. -/
def endsWithExpr : Stmt → Bool
  | .expr _ => true
  | .display _ => true
  | .ret _ (some _) => true
  | .declare _ _ (some _) _ => true
  | _ => false

/-- Whether a statement is a return without a value. -/
def isBareRet : Stmt → Bool
  | .ret _ none => true
  | _ => false

/-- The second statement may directly follow the first one. Nothing follows a return without a
value, because it would be read as the value; and an expression is not followed by its
continuation. -/
structure MayPrecede (s s' : Stmt) : Prop where
  notBare : s.isBareRet = false
  apart : s.endsWithExpr = true → s'.continues = false

end Stmt

/-- The token is a name. -/
def Token.IsName (t : Token) : Prop :=
  ∃ name, t.kind = .identifier name

namespace Grammar

/-! ## Expressions -/

/-- The ranks of expressions, from the loosest to the tightest. -/
inductive Rank where
  | assignment
  | level (l : Level)
  | unary
  | call
  | primary

/-- The productions `level := next (operator next)*`: the operators of a level, what stands between
them, and the node that an operator makes of what stands on its two sides. -/
inductive Operators : Level → List Mark → Rank → (Expr → Token → Expr → Expr) → Prop
  | or : Operators .or [.o] (.level .and) .logical
  | and : Operators .and [.ug] (.level .equality) .logical
  | equality : Operators .equality [.equalEqual, .notEqual] (.level .comparison) .binary
  | comparison :
    Operators .comparison [.greater, .greaterEqual, .less, .lessEqual] (.level .term) .binary
  | term : Operators .term [.plus, .minus, .ampersand] (.level .factor) .binary
  | factor : Operators .factor [.star, .slash, .percent] .unary .binary

/-- The literals and their values. -/
inductive Literal : Kind → Value → Prop
  | int (n : Int64) : Literal (.int n) (.int n)
  | float (x : Float) : Literal (.float x) (.float x)
  | char (c : Char) : Literal (.char c) (.char c)
  | string (s : String) : Literal (.string s) (.str s)
  | oo : Literal (.mark .oo) (.bool true)
  | dili : Literal (.mark .dili) (.bool false)

/-- An expression of a rank, or at least one argument of a call. -/
inductive ExprPhrase where
  | expr (r : Rank) (e : Expr)
  | arguments (es : List Expr)

/-- The derivations of expressions and arguments. -/
inductive ExprPhrase.Derives : ExprPhrase → List Token → List Token → Prop
  -- An assignment groups from the right and has a name on its left.
  | assign {name equals value ts rest} (hname : name.IsName) (hequals : equals.is .equal)
      (hvalue : Derives (.expr .assignment value) ts rest) :
      Derives (.expr .assignment (.assign name value)) (name :: equals :: ts) rest
  | unassigned {e ts rest} (h : Derives (.expr (.level .or) e) ts rest) :
      Derives (.expr .assignment e) ts rest
  -- Binary operators group from the left.
  | operator {l marks next node left op right ts mid rest} (row : Operators l marks next node)
      (hleft : Derives (.expr (.level l) left) ts (op :: mid)) (hop : marks.any op.is)
      (hright : Derives (.expr next right) mid rest) :
      Derives (.expr (.level l) (node left op right)) ts rest
  | operand {l marks next node e ts rest} (row : Operators l marks next node)
      (h : Derives (.expr next e) ts rest) : Derives (.expr (.level l) e) ts rest
  | signed {op e ts rest} (hop : op.is .bang ∨ op.is .minus ∨ op.is .plus)
      (h : Derives (.expr .unary e) ts rest) : Derives (.expr .unary (.unary op e)) (op :: ts) rest
  | unsigned {e ts rest} (h : Derives (.expr .call e) ts rest) : Derives (.expr .unary e) ts rest
  -- The token of a call is its closing parenthesis.
  | call {callee left paren args ts mid rest}
      (hcallee : Derives (.expr .call callee) ts (left :: mid)) (hleft : left.is .leftParen)
      (hargs : Derives (.arguments args) mid (paren :: rest)) (hparen : paren.is .rightParen)
      (few : args.length ≤ 255) : Derives (.expr .call (.call callee paren args)) ts rest
  | callEmpty {callee left paren ts rest}
      (hcallee : Derives (.expr .call callee) ts (left :: paren :: rest))
      (hleft : left.is .leftParen) (hparen : paren.is .rightParen) :
      Derives (.expr .call (.call callee paren [])) ts rest
  | uncalled {e ts rest} (h : Derives (.expr .primary e) ts rest) : Derives (.expr .call e) ts rest
  | lastArgument {e ts rest} (h : Derives (.expr .assignment e) ts rest) :
      Derives (.arguments [e]) ts rest
  | argument {e comma es ts mid rest} (h : Derives (.expr .assignment e) ts (comma :: mid))
      (hcomma : comma.is .comma) (hmore : Derives (.arguments es) mid rest) :
      Derives (.arguments (e :: es)) ts rest
  | literal {t v rest} (h : Literal t.kind v) :
      Derives (.expr .primary (.literal v t.line)) (t :: rest) rest
  | var {name rest} (h : name.IsName) : Derives (.expr .primary (.var name)) (name :: rest) rest
  | grouping {left e right ts rest} (hleft : left.is .leftParen)
      (h : Derives (.expr .assignment e) ts (right :: rest)) (hright : right.is .rightParen) :
      Derives (.expr .primary (.grouping e)) (left :: ts) rest

/-- `expression := assignment` -/
abbrev Expression (e : Expr) : List Token → List Token → Prop :=
  ExprPhrase.Derives (.expr .assignment e)

/-- `or := and ("O" and)*` -/
abbrev Alternative (e : Expr) : List Token → List Token → Prop :=
  ExprPhrase.Derives (.expr (.level .or) e)

/-! ## Declarations -/

/-- `"MUGNA" | "PIRMI"`: the word that declares mutable or immutable variables. -/
def DeclaringWord (mutable : Bool) (t : Token) : Prop :=
  t.is (if mutable then .mugna else .pirmi)

/-- `declarator := IDENT ("=" expression)?` -/
inductive Declarator (ty : Ty) (mutable : Bool) : Stmt → List Token → List Token → Prop
  | bare {name rest} (hname : name.IsName) :
      Declarator ty mutable (.declare name ty none mutable) (name :: rest) rest
  | init {name equals e ts rest} (hname : name.IsName) (hequals : equals.is .equal)
      (he : Expression e ts rest) :
      Declarator ty mutable (.declare name ty (some e) mutable) (name :: equals :: ts) rest

/-- `declarator ("," declarator)*` -/
inductive Declarators (ty : Ty) (mutable : Bool) : List Stmt → List Token → List Token → Prop
  | last {d ts rest} (h : Declarator ty mutable d ts rest) : Declarators ty mutable [d] ts rest
  | more {d comma ds ts mid rest} (h : Declarator ty mutable d ts (comma :: mid))
      (hcomma : comma.is .comma) (hmore : Declarators ty mutable ds mid rest) :
      Declarators ty mutable (d :: ds) ts rest

/-- `declaration*`, where a declaration is one statement for each name. -/
inductive Declarations : List Stmt → List Token → List Token → Prop
  | none {rest} : Declarations [] rest rest
  | more {keyword mutable t ty ds ds' ts mid rest} (hkeyword : DeclaringWord mutable keyword)
      (hty : t.is (.ty ty)) (h : Declarators ty mutable ds ts mid)
      (hmore : Declarations ds' mid rest) : Declarations (ds ++ ds') (keyword :: t :: ts) rest

/-! ## Statements -/

/-- `IDENT ("," IDENT)*` -/
inductive Names : List Token → List Token → List Token → Prop
  | last {name rest} (h : name.IsName) : Names [name] (name :: rest) rest
  | more {name comma names ts rest} (h : name.IsName) (hcomma : comma.is .comma)
      (hmore : Names names ts rest) : Names (name :: names) (name :: comma :: ts) rest

/-- `for_init := ("MUGNA" | "PIRMI") type declarator | IDENT "=" expression` -/
inductive LoopInit : Stmt → List Token → List Token → Prop
  | declare {keyword mutable t ty d ts rest} (hkeyword : DeclaringWord mutable keyword)
      (hty : t.is (.ty ty)) (h : Declarator ty mutable d ts rest) :
      LoopInit d (keyword :: t :: ts) rest
  | assign {name equals e ts rest} (hname : name.IsName) (hequals : equals.is .equal)
      (he : Expression e ts rest) : LoopInit (.expr (.assign name e)) (name :: equals :: ts) rest

/-- `IDENT ("++" | "--")`, which stands for an assignment. The operator keeps the line of the first
of the two signs, the number one has the line of the name. -/
inductive Increment : Expr → List Token → List Token → Prop
  | up {name sign sign' rest} (hname : name.IsName) (hsign : sign.is .plus)
      (hsign' : sign'.is .plus) :
      Increment
        (.assign name (.binary (.var name) ⟨.mark .plus, "+", sign.line⟩
          (.literal (.int 1) name.line)))
        (name :: sign :: sign' :: rest) rest
  | down {name sign sign' rest} (hname : name.IsName) (hsign : sign.is .minus)
      (hsign' : sign'.is .minus) :
      Increment
        (.assign name (.binary (.var name) ⟨.mark .minus, "-", sign.line⟩
          (.literal (.int 1) name.line)))
        (name :: sign :: sign' :: rest) rest

/-- What is derived together with statements. -/
inductive Phrase where
  | items (ss : List Stmt)
  | statements (ss : List Stmt)
  | statement (s : Stmt)
  | branch (b : Branch)
  | elseIfs (bs : List Branch)
  | block (body : List Stmt)

/-- The derivations of statements; `inFn` says that they stand inside of a function. -/
inductive Phrase.Derives (inFn : Bool) : Phrase → List Token → List Token → Prop
  | items {ds ss ts mid rest} (hds : Declarations ds ts mid)
      (hss : Derives inFn (.statements ss) mid rest)
      (follow : (ds ++ ss).IsChain Stmt.MayPrecede) : Derives inFn (.items (ds ++ ss)) ts rest
  | noStatement {rest} : Derives inFn (.statements []) rest rest
  | statement {s ss ts mid rest} (h : Derives inFn (.statement s) ts mid)
      (hmore : Derives inFn (.statements ss) mid rest) :
      Derives inFn (.statements (s :: ss)) ts rest
  | display {keyword colon e ts rest} (hkeyword : keyword.is .ipakita) (hcolon : colon.is .colon)
      (he : Alternative e ts rest) :
      Derives inFn (.statement (.display e)) (keyword :: colon :: ts) rest
  | accept {keyword colon names ts rest} (hkeyword : keyword.is .dawat)
      (hcolon : colon.is .colon) (hnames : Names names ts rest) :
      Derives inFn (.statement (.accept names)) (keyword :: colon :: ts) rest
  | choose {keyword first others ts mid rest} (hkeyword : keyword.is .kung)
      (hfirst : Derives inFn (.branch first) ts mid)
      (hothers : Derives inFn (.elseIfs others) mid rest) :
      Derives inFn (.statement (.choose first others none)) (keyword :: ts) rest
  | chooseElse {keyword first others keyword' body ts mid mid' rest}
      (hkeyword : keyword.is .kung) (hfirst : Derives inFn (.branch first) ts mid)
      (hothers : Derives inFn (.elseIfs others) mid (keyword' :: mid')) (notAlone : others ≠ [])
      (hkeyword' : keyword'.is .kungWala) (hbody : Derives inFn (.block body) mid' rest) :
      Derives inFn (.statement (.choose first others (some body))) (keyword :: ts) rest
  | whileLoop {keyword left e right body ts mid rest} (hkeyword : keyword.is .samtang)
      (hleft : left.is .leftParen) (he : Expression e ts (right :: mid))
      (hright : right.is .rightParen) (hbody : Derives inFn (.block body) mid rest) :
      Derives inFn (.statement (.whileLoop e body)) (keyword :: left :: ts) rest
  | forLoop {keyword left init comma e comma' step right body ts mid mid' mid'' rest}
      (hkeyword : keyword.is .alangSa) (hleft : left.is .leftParen)
      (hinit : LoopInit init ts (comma :: mid)) (hcomma : comma.is .comma)
      (he : Expression e mid (comma' :: mid')) (hcomma' : comma'.is .comma)
      (hstep : Increment step mid' (right :: mid'')) (hright : right.is .rightParen)
      (hbody : Derives inFn (.block body) mid'' rest) :
      Derives inFn (.statement (.forLoop init e step body)) (keyword :: left :: ts) rest
  | blockStatement {body ts rest} (h : Derives inFn (.block body) ts rest) :
      Derives inFn (.statement (.block body)) ts rest
  | bareRet {keyword rest} (inside : inFn = true) (hkeyword : keyword.is .iuli) :
      Derives inFn (.statement (.ret keyword none)) (keyword :: rest) rest
  | ret {keyword e ts rest} (inside : inFn = true) (hkeyword : keyword.is .iuli)
      (he : Expression e ts rest) :
      Derives inFn (.statement (.ret keyword (some e))) (keyword :: ts) rest
  | expr {e ts rest} (he : Expression e ts rest) : Derives inFn (.statement (.expr e)) ts rest
  | branch {left e right body ts mid rest} (hleft : left.is .leftParen)
      (he : Alternative e ts (right :: mid)) (hright : right.is .rightParen)
      (hbody : Derives inFn (.block body) mid rest) :
      Derives inFn (.branch ⟨e, body⟩) (left :: ts) rest
  | noElseIf {rest} : Derives inFn (.elseIfs []) rest rest
  | elseIf {keyword b bs ts mid rest} (hkeyword : keyword.is .kungDili)
      (hb : Derives inFn (.branch b) ts mid) (hmore : Derives inFn (.elseIfs bs) mid rest) :
      Derives inFn (.elseIfs (b :: bs)) (keyword :: ts) rest
  | block {keyword left right body ts rest} (hkeyword : keyword.is .pundok)
      (hleft : left.is .leftBrace) (h : Derives inFn (.items body) ts (right :: rest))
      (hright : right.is .rightBrace) :
      Derives inFn (.block body) (keyword :: left :: ts) rest

/-! ## Programs -/

/-- No statement stands behind a return. -/
def RetLast (ss : List Stmt) : Prop :=
  ss.IsChain fun s _ => s.isRet = false

/-- `param ("," param)*`, where a parameter is a type and a name. -/
inductive Params : List Param → List Token → List Token → Prop
  | last {t ty name rest} (hty : t.is (.ty ty)) (hname : name.IsName) :
      Params [⟨ty, name⟩] (t :: name :: rest) rest
  | more {t ty name comma ps ts rest} (hty : t.is (.ty ty)) (hname : name.IsName)
      (hcomma : comma.is .comma) (hmore : Params ps ts rest) :
      Params (⟨ty, name⟩ :: ps) (t :: name :: comma :: ts) rest

/-- `"(" (param ("," param)*)? ")"` -/
inductive ParamList : List Param → List Token → List Token → Prop
  | empty {left right rest} (hleft : left.is .leftParen) (hright : right.is .rightParen) :
      ParamList [] (left :: right :: rest) rest
  | some {left right ps ts rest} (hleft : left.is .leftParen) (h : Params ps ts (right :: rest))
      (hright : right.is .rightParen) (few : ps.length ≤ 255) : ParamList ps (left :: ts) rest

/-- `type?` -/
inductive ReturnTy : Option Ty → List Token → List Token → Prop
  | none {rest} : ReturnTy none rest rest
  | some {t ty rest} (hty : t.is (.ty ty)) : ReturnTy (some ty) (t :: rest) rest

/-- `function := "BUHAT" type? IDENT "(" (param ("," param)*)? ")" block`, where a return ends the
body, and the body ends with a return if there is a return type. -/
inductive Function : FunDecl → List Token → List Token → Prop
  | mk {keyword returnTy name ps body ts mid mid' rest} (hkeyword : keyword.is .buhat)
      (hty : ReturnTy returnTy ts (name :: mid)) (hname : name.IsName)
      (hps : ParamList ps mid mid') (hbody : Phrase.Derives true (.block body) mid' rest)
      (retLast : RetLast body)
      (retThere : returnTy ≠ none → ∃ s, body.getLast? = some s ∧ s.isRet = true) :
      Function ⟨name, ps, body, returnTy⟩ (keyword :: ts) rest

/-- `function*` -/
inductive Functions : List Stmt → List Token → List Token → Prop
  | none {rest} : Functions [] rest rest
  | more {decl fs ts mid rest} (h : Function decl ts mid) (hmore : Functions fs mid rest) :
      Functions (.fn decl :: fs) ts rest

/-- `program := function* "SUGOD" items "KATAPUSAN"`: the tokens are the program, and nothing is
left behind it. -/
inductive Derives : Program → List Token → Prop
  | mk {fs sugod ss katapusan ts mid} (hfs : Functions fs ts (sugod :: mid))
      (hsugod : sugod.is .sugod) (hss : Phrase.Derives false (.items ss) mid [katapusan])
      (hkatapusan : katapusan.is .katapusan) : Derives (fs ++ ss) ts

/-! ## A small program

A function and a block that calls it, on four lines. -/

/-- A mark as it is written on a line. -/
def written (m : Mark) (line : Nat) : Token :=
  ⟨.mark m, m.spelling, line⟩

/-- A name as it is written on a line. -/
def named (name : String) (line : Nat) : Token :=
  ⟨.identifier name, name, line⟩

/-- A number as it is written on a line, with a leading zero. -/
def numbered (n : Nat) (line : Nat) : Token :=
  ⟨.int (.ofNat n), "0" ++ n.repr, line⟩

/-- `BUHAT NUMERO twice(NUMERO n) PUNDOK \x7b IULI n + n \x7d` and
`SUGOD MUGNA NUMERO x = 1, y  y = twice(x) * 2  KATAPUSAN`. -/
def doublingTokens : List Token :=
  [written .buhat 1, written (.ty .int) 1, named "twice" 1, written .leftParen 1,
    written (.ty .int) 1, named "n" 1, written .rightParen 1, written .pundok 1,
    written .leftBrace 1, written .iuli 1, named "n" 1, written .plus 1, named "n" 1,
    written .rightBrace 1,
    written .sugod 2, written .mugna 2, written (.ty .int) 2, named "x" 2, written .equal 2,
    numbered 1 2, written .comma 2, named "y" 2,
    named "y" 3, written .equal 3, named "twice" 3, written .leftParen 3, named "x" 3,
    written .rightParen 3, written .star 3, numbered 2 3,
    written .katapusan 4]

/-- The function of the program. -/
def twice : FunDecl :=
  ⟨named "twice" 1, [⟨.int, named "n" 1⟩],
    [.ret (written .iuli 1)
      (some (.binary (.var (named "n" 1)) (written .plus 1) (.var (named "n" 1))))],
    some .int⟩

/-- The tree of the program. -/
def doubling : Program :=
  [.fn twice,
    .declare (named "x" 2) .int (some (.literal (.int 1) 2)) true,
    .declare (named "y" 2) .int none true,
    .expr (.assign (named "y" 3)
      (.binary (.call (.var (named "twice" 3)) (written .rightParen 3) [.var (named "x" 3)])
        (written .star 3) (.literal (.int 2) 3)))]

namespace ExprPhrase.Derives

variable {e : Expr} {ts rest : List Token}

/-- An operand of a product is an expression of the level of products. -/
theorem factor_of_primary (h : Derives (.expr .primary e) ts rest) :
    Derives (.expr (.level .factor) e) ts rest :=
  .operand .factor (.unsigned (.uncalled h))

/-- A sum is an expression. -/
theorem expression_of_term (h : Derives (.expr (.level .term) e) ts rest) :
    Expression e ts rest :=
  .unassigned (.operand .or (.operand .and (.operand .equality (.operand .comparison h))))

theorem expression_of_primary (h : Derives (.expr .primary e) ts rest) : Expression e ts rest :=
  expression_of_term (.operand .term (factor_of_primary h))

end ExprPhrase.Derives

open ExprPhrase.Derives in
theorem function_twice (rest : List Token) :
    Function twice (doublingTokens.take 14 ++ rest) rest := by
  have hsum : Expression (.binary (.var (named "n" 1)) (written .plus 1) (.var (named "n" 1)))
      ([named "n" 1, written .plus 1, named "n" 1, written .rightBrace 1] ++ rest)
      (written .rightBrace 1 :: rest) :=
    expression_of_term (.operator .term (.operand .term (factor_of_primary (.var ⟨_, rfl⟩))) rfl
      (factor_of_primary (.var ⟨_, rfl⟩)))
  have hbody : Phrase.Derives true (.items twice.body) _ (written .rightBrace 1 :: rest) :=
    .items .none (.statement (.ret rfl rfl hsum) .noStatement) (.singleton _)
  exact .mk rfl (.some rfl) ⟨_, rfl⟩ (.some rfl (.last rfl ⟨_, rfl⟩) rfl (by decide))
    (.block rfl rfl hbody rfl) (.singleton _) fun _ => ⟨_, rfl, rfl⟩

open ExprPhrase.Derives in
/-- The grammar derives the program from its tokens. -/
theorem derives_doubling : Derives doubling doublingTokens := by
  have hcall : ExprPhrase.Derives (.expr .call
      (.call (.var (named "twice" 3)) (written .rightParen 3) [.var (named "x" 3)]))
      (doublingTokens.drop 24) (doublingTokens.drop 28) :=
    .call (.uncalled (.var ⟨_, rfl⟩)) rfl
      (.lastArgument (expression_of_primary (.var ⟨_, rfl⟩))) rfl (by decide)
  have hproduct := ExprPhrase.Derives.operator .factor (.operand .factor (.unsigned hcall)) rfl
    (.unsigned (.uncalled (.literal (.int 2))))
  have hvalue := expression_of_term (.operand .term hproduct)
  have hmugna : DeclaringWord true (written .mugna 2) := rfl
  have hint : (written (.ty .int) 2).is (.ty .int) = true := rfl
  have hdeclarations : Declarations [_, _] (doublingTokens.drop 15) (doublingTokens.drop 22) :=
    .more hmugna hint (.more (.init ⟨_, rfl⟩ rfl (expression_of_primary (.literal (.int 1)))) rfl
      (.last (.bare ⟨_, rfl⟩))) .none
  refine .mk (.more (function_twice _) .none) rfl (.items hdeclarations
    (.statement (.expr (.assign ⟨_, rfl⟩ rfl hvalue)) .noStatement) ?_) rfl
  exact .cons_cons ⟨rfl, fun _ => rfl⟩ (.cons_cons ⟨rfl, fun h => nomatch h⟩ (.singleton _))

end Grammar

end Sugod
