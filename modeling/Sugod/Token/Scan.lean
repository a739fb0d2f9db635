import Sugod.Token.Piece

/-!
# Scanning

A source is cut into pieces. The tokens are the pieces that are tokens, the errors are the pieces
that are errors; both carry the number of their row, which goes up by one at every line feed. The
list of tokens is closed by an end token on the last row.
-/

set_option autoImplicit false

namespace Sugod

/-- The tokens and the errors of a source, both in order. -/
structure Scan where
  tokens : List Token
  errors : List ScanError

namespace Scan

/-- The token that a piece is, on a given line. -/
def token? (line : Nat) (p : Piece) : Option Token :=
  match p.finding with
  | .token kind => some ⟨kind, String.ofList p.text, line⟩
  | _ => none

/-- The error that a piece is, on a given line. -/
def error? (line : Nat) (p : Piece) : Option ScanError :=
  match p.finding with
  | .error cause => some ⟨cause, line⟩
  | _ => none

/-- The number of the row behind a piece that stands on a given line. -/
def nextLine (line : Nat) (p : Piece) : Nat :=
  match p.finding with
  | .lineFeed => line + 1
  | _ => line

/-- Collects what `f` finds in the pieces; the first piece stands on the given line. -/
def collect {α : Type} (f : Nat → Piece → Option α) : Nat → List Piece → List α
  | _, [] => []
  | line, p :: ps => (f line p).toList ++ collect f (nextLine line p) ps

/-- The tokens of a source without the closing end token. -/
def proper (cs : List Char) : List Token :=
  collect token? 1 (Piece.pieces cs)

/-- The end token of a source, which stands on its last row. -/
def endToken (cs : List Char) : Token :=
  ⟨.eof, "", (Piece.pieces cs).foldl nextLine 1⟩

/-- Scans a source given as a list of characters. -/
def ofChars (cs : List Char) : Scan where
  tokens := proper cs ++ [endToken cs]
  errors := collect error? 1 (Piece.pieces cs)

/-- Scans a source. -/
def ofSource (source : String) : Scan :=
  ofChars source.toList

theorem collect_append {α : Type} (f : Nat → Piece → Option α) (line : Nat) (a b : List Piece) :
    collect f line (a ++ b) = collect f line a ++ collect f (a.foldl nextLine line) b := by
  induction a generalizing line with
  | nil => rfl
  | cons p a ih =>
    simp only [List.cons_append, collect, ih, List.append_assoc, List.foldl_cons]

end Scan

end Sugod
