import Sugod.Grammar.ParseError

/-!
# Parsers

A parser takes tokens from the front of a list. It gives a value and the tokens that are left, or an
error, or it has spent the steps that it was given. The input ends at the first end token, which no
parser takes, or where no tokens are left. An end token has a line of its own; the line of the end
of the list is one that a parser is told beforehand.
-/

set_option autoImplicit false

namespace Sugod

/-- The result of a parser. -/
inductive Parsed (α : Type) where
  | ok (value : α) (rest : List Token)
  | error (e : ParseError)
  | spent

/-- A parser: it is told the line of the end of the list and takes tokens. -/
def Parser (α : Type) : Type :=
  Nat → List Token → Parsed α

namespace Parser

variable {α β : Type}

/-- Gives a value and takes no token. -/
@[inline] protected def pure (a : α) : Parser α :=
  fun _ ts => .ok a ts

/-- Goes on with the value of a parser and the tokens that it left. -/
@[inline] protected def bind (p : Parser α) (f : α → Parser β) : Parser β :=
  fun endLine ts =>
    match p endLine ts with
    | .ok a rest => f a endLine rest
    | .error e => .error e
    | .spent => .spent

instance : Monad Parser where
  pure := Parser.pure
  bind := Parser.bind

@[simp] theorem pure_apply (a : α) (endLine : Nat) (ts : List Token) :
    (pure a : Parser α) endLine ts = .ok a ts := rfl

/-- What a parser followed by another one does with tokens. -/
theorem bind_apply (p : Parser α) (f : α → Parser β) (endLine : Nat) (ts : List Token) :
    (p >>= f) endLine ts =
      match p endLine ts with
      | .ok a rest => f a endLine rest
      | .error e => .error e
      | .spent => .spent := rfl

/-- The parser for which there are no steps left. -/
@[inline] def spent : Parser α :=
  fun _ _ => .spent

/-- Fails at a given line. -/
@[inline] def failAt (line : Nat) (cause : ParseCause) : Parser α :=
  fun _ _ => .error ⟨cause, line⟩

/-- The line of the next token, or of the end of the input. -/
def nextLine (endLine : Nat) : List Token → Nat
  | [] => endLine
  | t :: _ => t.line

/-- How the next token, or the end of the input, is shown in a report. -/
def found : List Token → String
  | [] => "end of input"
  | t :: _ => t.describe

/-- Fails at the next token; the cause may show that token. -/
@[inline] def fail (cause : String → ParseCause) : Parser α :=
  fun endLine ts => .error ⟨cause (found ts), nextLine endLine ts⟩

/-- The next token, which is not taken. -/
@[inline] def peek : Parser (Option Token) :=
  fun _ ts => .ok ts.head? ts

/-- The kind of the next token, which is not taken. -/
@[inline] def peekKind : Parser (Option Kind) :=
  fun _ ts => .ok (ts.head?.map Token.kind) ts

/-- Takes the next token, if there is one. -/
@[inline] def skip : Parser Unit :=
  fun _ ts => .ok () ts.tail

/-- Takes the next token if it is one of some marks. -/
def take? (marks : List Mark) : Parser (Option Token) :=
  fun _ ts =>
    match ts with
    | [] => .ok none []
    | t :: rest => if marks.any t.is then .ok (some t) rest else .ok none (t :: rest)

/-- Whether the next token is a mark; it is not taken. -/
def nextIs (m : Mark) : Parser Bool :=
  fun _ ts => .ok (ts.head?.any (Token.is m)) ts

/-- Gives `a` if the next token is a mark, which is not taken, and parses something otherwise. -/
@[inline] def unlessNext (m : Mark) (a : α) (p : Parser α) : Parser α :=
  fun endLine ts => if ts.head?.any (Token.is m) then .ok a ts else p endLine ts

/-- Takes the next token, which has to be a mark. -/
def expect (m : Mark) (place : Place) : Parser Token :=
  fun endLine ts =>
    match ts with
    | [] => .error ⟨.expectedMark m place "end of input", endLine⟩
    | t :: rest =>
      if t.is m then .ok t rest else .error ⟨.expectedMark m place t.describe, t.line⟩

/-- Takes the next token, which has to be a name. -/
def identifier (place : Place) : Parser Token :=
  fun endLine ts =>
    match ts with
    | [] => .error ⟨.expectedIdentifier place "end of input", endLine⟩
    | t :: rest =>
      match t.kind with
      | .identifier _ => .ok t rest
      | _ => .error ⟨.expectedIdentifier place t.describe, t.line⟩

/-- Takes the next token if it spells a type. -/
def ty? : Parser (Option Ty) :=
  fun _ ts =>
    match ts with
    | [] => .ok none []
    | t :: rest =>
      match t.kind.ty? with
      | some ty => .ok (some ty) rest
      | none => .ok none (t :: rest)

/-- Takes the next token, which has to spell a type. -/
def ty : Parser Ty := do
  match ← ty? with
  | some ty => pure ty
  | none => fail .expectedType

end Parser

end Sugod
