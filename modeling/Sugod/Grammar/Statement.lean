import Sugod.Grammar.Expression

/-!
# The grammar of statements

```
items       := declaration* statement*
declaration := ("MUGNA" | "PIRMI") type declarator ("," declarator)*
declarator  := IDENT ("=" expression)?
statement   := display | accept | if | while | for | block | return | expression
display     := "IPAKITA" ":" or
accept      := "DAWAT" ":" IDENT ("," IDENT)*
if          := "KUNG" "(" or ")" block ("KUNG DILI" "(" or ")" block)* ("KUNG WALA" block)?
while       := "SAMTANG" "(" expression ")" block
for         := "ALANG SA" "(" for_init "," expression "," IDENT ("++" | "--") ")" block
for_init    := ("MUGNA" | "PIRMI") type declarator | IDENT "=" expression
block       := "PUNDOK" "{" items "}"
return      := "IULI" expression?
```

Statements have no terminator. A closing `KUNG WALA` needs a `KUNG DILI` in front of it, a return
stands inside a function only, and in the list of a function's own body nothing stands behind it.
-/

set_option autoImplicit false

namespace Sugod.Grammar

/-- Parses `= expression` behind a name, if it is there. -/
def initializer (n : Nat) : Parser (Option Expr) := do
  match ← Parser.take? [.equal] with
  | none => pure none
  | some _ =>
    let e ← assignment n
    pure (some e)

/-- Parses the declaration of one name. -/
def declarator (n : Nat) (ty : Ty) (mutable : Bool) : Parser Stmt := do
  let name ← Parser.identifier .variableName
  let init ← initializer n
  pure (.declare name ty init mutable)

/-- Parses the names that one declaration declares. -/
def declarators : Nat → Ty → Bool → Parser (List Stmt)
  | 0, _, _ => Parser.spent
  | n + 1, ty, mutable => do
    let d ← declarator n ty mutable
    match ← Parser.take? [.comma] with
    | none => pure [d]
    | some _ =>
      let ds ← declarators n ty mutable
      pure (d :: ds)

/-- Parses the declarations at the start of a list. -/
def declarations : Nat → Parser (List Stmt)
  | 0 => Parser.spent
  | n + 1 => do
    match ← Parser.take? [.mugna, .pirmi] with
    | none => pure []
    | some keyword =>
      let ty ← Parser.ty
      let ds ← declarators n ty (keyword.is .mugna)
      let more ← declarations n
      pure (ds ++ more)

/-- Parses the names that an input statement assigns; `place` is where the first one stands. -/
def acceptNames : Nat → Place → Parser (List Token)
  | 0, _ => Parser.spent
  | n + 1, place => do
    let name ← Parser.identifier place
    match ← Parser.take? [.comma] with
    | none => pure [name]
    | some _ =>
      let names ← acceptNames n .nextDawatName
      pure (name :: names)

/-- Parses a condition in parentheses. -/
def condition (n : Nat) : Parser Expr := do
  let _ ← Parser.expect .leftParen .beforeCondition
  let e ← level n .or
  let _ ← Parser.expect .rightParen .afterCondition
  pure e

/-- Parses what a counting loop does first. -/
def loopInit (n : Nat) : Parser Stmt := do
  match ← Parser.take? [.mugna, .pirmi] with
  | some keyword =>
    let ty ← Parser.ty
    declarator n ty (keyword.is .mugna)
  | none =>
    let name ← Parser.identifier .loopName
    let _ ← Parser.expect .equal .loopInitializer
    let value ← assignment n
    pure (.expr (.assign name value))

/-- The assignment that counts a name up or down by one; `op` is the first of the two signs. -/
def counting (name : Token) (sign : Mark) (text : String) (op : Token) : Expr :=
  .assign name (.binary (.var name) ⟨.mark sign, text, op.line⟩ (.literal (.int 1) name.line))

/-- Takes one sign of the increment of a counting loop. -/
def incrementSign (marks : List Mark) : Parser Token := do
  match ← Parser.take? marks with
  | some op => pure op
  | none => Parser.fail .invalidIncrement

/-- Parses the increment of a counting loop. -/
def increment : Parser Expr := do
  let name ← Parser.identifier .loopIncrement
  let op ← incrementSign [.plus, .minus]
  if op.is .plus then
    let _ ← incrementSign [.plus]
    pure (counting name .plus "+" op)
  else
    let _ ← incrementSign [.minus]
    pure (counting name .minus "-" op)

/-- Parses the value of a return, if there is one. -/
def returnValue (n : Nat) : Parser (Option Expr) :=
  fun endLine ts =>
    match ts with
    | [] => .ok none []
    | t :: rest =>
      if t.is .rightBrace || t.kind.isEof then .ok none (t :: rest)
      else (some <$> assignment n) endLine (t :: rest)

/-- Whether the last of some statements is a return. -/
def endsWithRet (body : List Stmt) : Bool :=
  body.getLast?.any Stmt.isRet

/-- Whether the tokens continue a conditional with a further condition. -/
def atElseIf : Parser Bool :=
  fun _ ts =>
    match ts with
    | t :: t' :: _ => .ok (t.is .kungDili && t'.is .leftParen) ts
    | _ => .ok false ts

mutual

/-- Parses a list of declarations and statements up to `closer`. Inside a function a return may
stand in it; with `own` the list is a function's own body, which ends behind a return. -/
def items : Nat → Mark → Bool → Bool → Parser (List Stmt)
  | 0, _, _, _ => Parser.spent
  | n + 1, closer, inFn, own => do
    let ds ← declarations n
    let ss ← statements n closer inFn own
    pure (ds ++ ss)

/-- Parses the statements of a list up to `closer` or the end of the input. -/
def statements : Nat → Mark → Bool → Bool → Parser (List Stmt)
  | 0, _, _, _ => Parser.spent
  | n + 1, closer, inFn, own => do
    match ← Parser.peek with
    | none => pure []
    | some t =>
      if t.is closer || t.kind.isEof then pure []
      else if t.is .mugna || t.is .pirmi then Parser.fail fun _ => .declarationAfterStatement
      else do
        let s ← statement n inFn
        if own && s.isRet then pure [s]
        else do
          let ss ← statements n closer inFn own
          pure (s :: ss)

/-- Parses a statement. -/
def statement : Nat → Bool → Parser Stmt
  | 0, _ => Parser.spent
  | n + 1, inFn => do
    match ← Parser.peek with
    | none =>
      let e ← assignment n
      pure (.expr e)
    | some t =>
      match t.kind with
      | .mark .ipakita =>
        Parser.skip
        let _ ← Parser.expect .colon .afterIpakita
        let e ← level n .or
        pure (.display e)
      | .mark .dawat =>
        Parser.skip
        let _ ← Parser.expect .colon .afterDawat
        let names ← acceptNames n .dawatName
        pure (.accept names)
      | .mark .kung =>
        Parser.skip
        let e ← condition n
        let body ← block n inFn false
        let others ← elseIfs n inFn
        let otherwise ← elseBlock n inFn others.isEmpty
        pure (.choose ⟨e, body⟩ others otherwise)
      | .mark .samtang =>
        Parser.skip
        let _ ← Parser.expect .leftParen .afterSamtang
        let e ← assignment n
        let _ ← Parser.expect .rightParen .afterCondition
        let body ← block n inFn false
        pure (.whileLoop e body)
      | .mark .alangSa =>
        Parser.skip
        let _ ← Parser.expect .leftParen .afterAlangSa
        let init ← loopInit n
        let _ ← Parser.expect .comma .afterLoopInitializer
        let e ← assignment n
        let _ ← Parser.expect .comma .afterLoopCondition
        let step ← increment
        let _ ← Parser.expect .rightParen .afterLoopIncrement
        let body ← block n inFn false
        pure (.forLoop init e step body)
      | .mark .iuli =>
        if inFn then do
          Parser.skip
          let value ← returnValue n
          pure (.ret t value)
        else Parser.failAt t.line .returnOutsideFunction
      | .mark .pundok =>
        Parser.skip
        let body ← braced n inFn false
        pure (.block body)
      | .mark .buhat => Parser.fail fun _ => .misplacedFunction
      | _ =>
        let e ← assignment n
        pure (.expr e)

/-- Parses the further conditions of a conditional. -/
def elseIfs : Nat → Bool → Parser (List Branch)
  | 0, _ => Parser.spent
  | n + 1, inFn => do
    if ← atElseIf then
      Parser.skip
      let e ← condition n
      let body ← block n inFn false
      let more ← elseIfs n inFn
      pure (⟨e, body⟩ :: more)
    else pure []

/-- Parses the last part of a conditional, if it is there; `alone` says that no further condition
stands in front of it. -/
def elseBlock : Nat → Bool → Bool → Parser (Option (List Stmt))
  | 0, _, _ => Parser.spent
  | n + 1, inFn, alone => do
    if ← Parser.nextIs .kungWala then
      if alone then Parser.fail fun _ => .elseWithoutElseIf
      else
        Parser.skip
        let body ← block n inFn false
        pure (some body)
    else pure none

/-- Parses a block with its keyword. -/
def block : Nat → Bool → Bool → Parser (List Stmt)
  | 0, _, _ => Parser.spent
  | n + 1, inFn, own => do
    let _ ← Parser.expect .pundok .beforeBlock
    braced n inFn own

/-- Parses a list in braces. -/
def braced : Nat → Bool → Bool → Parser (List Stmt)
  | 0, _, _ => Parser.spent
  | n + 1, inFn, own => do
    let _ ← Parser.expect .leftBrace .afterPundok
    let body ← items n .rightBrace inFn own
    let _ ← Parser.expect .rightBrace
      (if own && endsWithRet body then .afterReturn else .blockEnd)
    pure body

end

end Sugod.Grammar
