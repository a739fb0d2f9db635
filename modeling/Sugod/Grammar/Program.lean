import Sugod.Grammar.Statement

/-!
# The grammar of programs

```
program  := function* "SUGOD" items "KATAPUSAN"
function := "BUHAT" type? IDENT "(" (param ("," param)*)? ")" block
param    := type IDENT
```

The body of a function with a return type ends with a return. A program ends at the first end token;
without one, it ends behind the last token, on the line of that token.
-/

set_option autoImplicit false

namespace Sugod.Grammar

/-- Parses at least one parameter; `count` parameters stand in front. -/
def params : Nat → Nat → Parser (List Param)
  | 0, _ => Parser.spent
  | n + 1, count =>
    if maxArity ≤ count then Parser.fail fun _ => .tooManyParameters
    else do
      let ty ← Parser.ty
      let name ← Parser.identifier .parameterName
      match ← Parser.take? [.comma] with
      | none => pure [⟨ty, name⟩]
      | some _ =>
        let ps ← params n (count + 1)
        pure (⟨ty, name⟩ :: ps)

/-- The declaration of a function, whose body has to end with a return if a value is returned. -/
def declared (name : Token) (ps : List Param) (body : List Stmt) : Option Ty → Parser FunDecl
  | none => pure ⟨name, ps, body, none⟩
  | some ty =>
    if endsWithRet body then pure ⟨name, ps, body, some ty⟩
    else Parser.failAt name.line (.missingReturn name.lexeme ty)

/-- Parses a function behind its keyword. -/
def function (n : Nat) : Parser FunDecl := do
  let returnTy ← Parser.ty?
  let name ← Parser.identifier .functionName
  let _ ← Parser.expect .leftParen .afterFunctionName
  let ps ← Parser.unlessNext .rightParen [] (params n 0)
  let _ ← Parser.expect .rightParen .afterParameters
  let body ← block n true true
  declared name ps body returnTy

/-- Parses the functions in front of the program block. -/
def functions : Nat → Parser (List Stmt)
  | 0 => Parser.spent
  | n + 1 => do
    match ← Parser.take? [.buhat] with
    | none => pure []
    | some _ =>
      let f ← function n
      let fs ← functions n
      pure (.fn f :: fs)

/-- Accepts the end of the input and nothing else. -/
def finish : Parser Unit := do
  match ← Parser.peekKind with
  | none => pure ()
  | some .eof => pure ()
  | some (.mark .sugod) => Parser.fail fun _ => .multiplePrograms
  | some (.mark .buhat) => Parser.fail fun _ => .misplacedFunction
  | some _ => Parser.fail fun _ => .outsideProgram

/-- Parses a program up to the end of the input. -/
def program (n : Nat) : Parser Program := do
  let fs ← functions n
  let _ ← Parser.expect .sugod .programStart
  let ss ← items n .katapusan false false
  let _ ← Parser.expect .katapusan .programEnd
  finish
  pure (fs ++ ss)

/-- The line of the last token; it is 1 if there is none. -/
def lastLine (tokens : List Token) : Nat :=
  (tokens.getLast?.map Token.line).getD 1

/-- A number of steps with which tokens can be parsed. -/
def steps (tokens : List Token) : Nat :=
  24 * (tokens.length + 1)

/-- Parses a list of tokens as a program. The steps always suffice: the last case never arises. -/
def parse (tokens : List Token) : Except ParseError Program :=
  match program (steps tokens) (lastLine tokens) tokens with
  | .ok p _ => .ok p
  | .error e => .error e
  | .spent => .error ⟨.expectedExpression (Parser.found []), lastLine tokens⟩

end Sugod.Grammar
