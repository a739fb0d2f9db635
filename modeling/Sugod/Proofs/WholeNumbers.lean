import Sugod.Session
import Sugod.Proofs.Reentry

/-!
# Whole numbers in programs and in input

A whole number gets into a program in two ways: it is written in the source, or it is typed into an
input line. In an input line the sign is read together with the digits. In a source the sign is an
operator, and the digits alone have to fit in 64 bits.

The main statement is `whole_number_shown`. The text of a whole number is read as the number, and a
program that displays that text as an expression displays the number. The one exception is the
smallest number, whose digits do not fit without the sign; there is an expression for it, but not
this text.

The program is followed through its three stages, with the digits unknown. It is scanned
(`Scan.ofSource_displaying`), read as a tree (`Session.read_digits`, `Session.read_negated`), and
executed (`Session.displays_of_read`).
-/

set_option autoImplicit false

namespace Sugod

/-- The program that displays an expression. -/
def displaying (expression : String) : String :=
  "SUGOD IPAKITA: " ++ expression ++ " KATAPUSAN"

/-- In a new session on the console a source runs to its end and writes a text, and nothing else
happens. -/
def Console.Displays (console : Console) (source text : String) : Prop :=
  ∃ enough, ∀ steps ≥ enough, (Session.start console).run steps source =
    some (.ok (), Session.start { console with writes := text :: console.writes })

/-! ## Scanning -/

namespace Piece

/-- The pieces in front of the expression. -/
def opening : List Piece :=
  [⟨.token (.mark .sugod), "SUGOD".toList⟩, ⟨.skip, [' ']⟩,
    ⟨.token (.mark .ipakita), "IPAKITA".toList⟩, ⟨.token (.mark .colon), [':']⟩, ⟨.skip, [' ']⟩]

/-- The pieces behind the expression. -/
def closing : List Piece :=
  [⟨.skip, [' ']⟩, ⟨.token (.mark .katapusan), "KATAPUSAN".toList⟩]

theorem pieces_opening (cs : List Char) :
    pieces ("SUGOD IPAKITA: ".toList ++ cs) = opening ++ pieces cs := rfl

/-- Digits in front of a blank are one piece. -/
theorem pieces_digits {ds : List Char} (h : Text.IsDigits ds) (cs : List Char) :
    pieces (ds ++ ' ' :: cs) = ⟨intFinding ds, ds⟩ :: pieces (' ' :: cs) := by
  obtain ⟨c, text, rfl⟩ := List.exists_cons_of_ne_nil h.1
  have hfirst : first c (text ++ ' ' :: cs) = (intFinding (c :: text), text.length) :=
    first_of_digits h (by simp [isWordChar]) (by simp)
  rw [List.cons_append, pieces_cons, hfirst, List.take_left, List.drop_left]

theorem pieces_minus (cs : List Char) :
    pieces ('-' :: cs) = ⟨.token (.mark .minus), ['-']⟩ :: pieces cs := rfl

theorem pieces_digits_closing {ds : List Char} (h : Text.IsDigits ds) :
    pieces (ds ++ " KATAPUSAN".toList) = ⟨intFinding ds, ds⟩ :: closing :=
  pieces_digits h "KATAPUSAN".toList

theorem intFinding_of_lt {ds : List Char} (h : Decimal.numeralValue ds < Nat.pow 2 63) :
    intFinding ds = .token (.int (Int64.ofNat (Decimal.numeralValue ds))) :=
  if_pos h

end Piece

namespace Scan

open Piece

/-- Scanning the program that displays an expression, if the pieces of the expression are known. -/
theorem ofSource_displaying {cs : List Char} {ps : List Piece}
    (h : pieces (cs ++ " KATAPUSAN".toList) = ps) :
    ofSource (displaying (String.ofList cs)) =
      ⟨collect token? 1 (opening ++ ps) ++ [⟨.eof, "", (opening ++ ps).foldl nextLine 1⟩],
        collect error? 1 (opening ++ ps)⟩ := by
  have htext : ∀ a b : String,
      (a ++ String.ofList cs ++ b).toList = a.toList ++ (cs ++ b.toList) := by
    simp
  have hpieces : pieces (displaying (String.ofList cs)).toList = opening ++ ps := by
    rw [← h]
    exact (congrArg pieces (htext _ _)).trans (pieces_opening _)
  unfold ofSource ofChars proper endToken
  rw [hpieces]

end Scan

/-! ## Reading and executing -/

namespace Session

open Piece

variable {ds : List Char}

/-- The minus sign in front of the digits. -/
def minus : Token :=
  ⟨.mark .minus, "-", 1⟩

theorem read_digits (h : Text.IsDigits ds) (hfit : Decimal.numeralValue ds < Nat.pow 2 63) :
    read (displaying (String.ofList ds)) =
      .ok [.display (.literal (.int (Int64.ofNat (Decimal.numeralValue ds))) 1)] := by
  have hpieces := pieces_digits_closing h
  rw [intFinding_of_lt hfit] at hpieces
  rw [read, Scan.ofSource_displaying hpieces]
  rfl

theorem read_negated (h : Text.IsDigits ds) (hfit : Decimal.numeralValue ds < Nat.pow 2 63) :
    read (displaying (String.ofList ('-' :: ds))) =
      .ok [.display
        (.unary minus (.literal (.int (Int64.ofNat (Decimal.numeralValue ds))) 1))] := by
  have hpieces := pieces_minus (ds ++ " KATAPUSAN".toList)
  rw [pieces_digits_closing h, intFinding_of_lt hfit] at hpieces
  rw [read, Scan.ofSource_displaying hpieces]
  rfl

/-- Digits that do not fit are an error, also behind a sign. -/
theorem read_malformed (h : Text.IsDigits ds) (hfit : Nat.pow 2 63 ≤ Decimal.numeralValue ds) :
    read (displaying (String.ofList ('-' :: ds))) =
      .error (.scan [⟨.malformedNumber (String.ofList ds), 1⟩]) := by
  have hfinding : intFinding ds = .error (.malformedNumber (String.ofList ds)) :=
    if_neg (Nat.not_lt.mpr hfit)
  have hpieces := pieces_minus (ds ++ " KATAPUSAN".toList)
  rw [pieces_digits_closing h, hfinding] at hpieces
  rw [read, Scan.ofSource_displaying hpieces]
  rfl

/-- A negated number less one. -/
theorem read_difference (h : Text.IsDigits ds) (hfit : Decimal.numeralValue ds < Nat.pow 2 63) :
    read (displaying (String.ofList ('-' :: ds ++ " - 1".toList))) =
      .ok [.display (.binary
        (.unary minus (.literal (.int (Int64.ofNat (Decimal.numeralValue ds))) 1)) minus
        (.literal (.int 1) 1))] := by
  have hone : pieces " - 1 KATAPUSAN".toList =
      ⟨.skip, [' ']⟩ :: ⟨.token (.mark .minus), ['-']⟩ :: ⟨.skip, [' ']⟩ ::
        ⟨.token (.int 1), ['1']⟩ :: closing := rfl
  have hdigits : pieces (ds ++ " - 1".toList ++ " KATAPUSAN".toList) =
      ⟨intFinding ds, ds⟩ :: pieces " - 1 KATAPUSAN".toList := by
    rw [List.append_assoc]
    exact pieces_digits h "- 1 KATAPUSAN".toList
  have hpieces := pieces_minus (ds ++ " - 1".toList ++ " KATAPUSAN".toList)
  rw [hdigits, intFinding_of_lt hfit, hone] at hpieces
  rw [read, Scan.ofSource_displaying hpieces]
  rfl

theorem read_smallest : read (displaying (Value.int Int64.minValue).text) =
    .error (.scan [⟨.malformedNumber "9223372036854775808", 1⟩]) := by
  have htext : (Value.int Int64.minValue).text =
      String.ofList ('-' :: "9223372036854775808".toList) := by decide +kernel
  have hdigits : Text.IsDigits "9223372036854775808".toList :=
    ⟨by decide, List.all_eq_true.mp (by decide)⟩
  rw [htext]
  exact read_malformed hdigits (by decide)

/-- A program that displays an expression writes the text of its value. -/
theorem displays_of_read {source : String} {e : Expr} {v : Value} {console : Console}
    (hread : read source = .ok [.display e]) (hwrites : console.writesLeft = none)
    (hvalue : ∀ n st, Eval.expr (n + 3) e st = .done v st) : console.Displays source v.text := by
  refine ⟨5, fun steps hsteps => ?_⟩
  obtain ⟨n, rfl⟩ := Nat.exists_eq_add_of_le' hsteps
  obtain ⟨input, readsFail, writes, writesLeft, readings, ticks⟩ := console
  subst hwrites
  simp only [run, hread, interpret, Eval.stmts, Eval.stmt, Action.bind_apply, Action.asStmt, hvalue]
  rfl

/-- A number is displayed by a program that holds its text, if its digits fit in 64 bits. -/
theorem displays_text {v : Int64} {console : Console} (hwrites : console.writesLeft = none)
    (hv : v ≠ Int64.minValue) :
    console.Displays (displaying (Value.int v).text) (Value.int v).text := by
  have hdigits := Entry.isDigits_numeral v.toInt.natAbs
  have hvalue := Decimal.numeralValue_numeral v.toInt.natAbs
  have hfit : Decimal.numeralValue (Decimal.numeral v.toInt.natAbs) < Nat.pow 2 63 := by
    have hlimit : Nat.pow 2 63 = 9223372036854775808 := rfl
    have hlow := v.le_toInt
    have hhigh := v.toInt_lt
    have hne : v.toInt ≠ Int64.minValue.toInt := fun heq => hv (Int64.toInt_inj.mp heq)
    rw [Int64.toInt_minValue] at hne
    omega
  by_cases hneg : v.toInt < 0
  · -- The literal is the absolute value, and the sign is an operator.
    have htext : (Value.int v).text = String.ofList ('-' :: Decimal.numeral v.toInt.natAbs) := by
      rw [Value.text, Decimal.signedNumeral, if_pos hneg]
    have hread := read_negated hdigits hfit
    rw [hvalue, ← htext] at hread
    have hnegated : -Int64.ofNat v.toInt.natAbs = v := by
      have habs : -(v.toInt.natAbs : Int) = v.toInt := by omega
      rw [← Int64.ofInt_eq_ofNat, ← Int64.ofInt_neg, habs, Int64.ofInt_toInt]
    refine displays_of_read hread hwrites fun n st => ?_
    show Result.done (Value.int (-Int64.ofNat v.toInt.natAbs)) st = _
    rw [hnegated]
  · have htext : (Value.int v).text = String.ofList (Decimal.numeral v.toInt.natAbs) := by
      rw [Value.text, Decimal.signedNumeral, if_neg hneg]
    have hread := read_digits hdigits hfit
    rw [hvalue, ← htext] at hread
    have hsame : Int64.ofNat v.toInt.natAbs = v := by
      have habs : (v.toInt.natAbs : Int) = v.toInt := by omega
      rw [← Int64.ofInt_eq_ofNat, habs, Int64.ofInt_toInt]
    refine displays_of_read hread hwrites fun n st => ?_
    show Result.done (Value.int (Int64.ofNat v.toInt.natAbs)) st = _
    rw [hsame]

theorem expr_difference (k : Int64) (n : Nat) (st : State) :
    Eval.expr (n + 3)
        (.binary (.unary minus (.literal (.int k) 1)) minus (.literal (.int 1) 1)) st =
      .done (.int (-k - 1)) st := rfl

/-- The smallest number is displayed by a difference. -/
theorem displays_smallest {console : Console} (hwrites : console.writesLeft = none) :
    console.Displays (displaying "-9223372036854775807 - 1") (Value.int Int64.minValue).text := by
  have htext : "-9223372036854775807 - 1" =
      String.ofList ('-' :: "9223372036854775807".toList ++ " - 1".toList) := by decide +kernel
  have hdigits : Text.IsDigits "9223372036854775807".toList :=
    ⟨by decide, List.all_eq_true.mp (by decide)⟩
  have hvalue : -Int64.ofNat (Decimal.numeralValue "9223372036854775807".toList) - 1 =
      Int64.minValue := by decide +kernel
  rw [htext]
  refine displays_of_read (read_difference hdigits (by decide)) hwrites fun n st => ?_
  rw [expr_difference, hvalue]

end Session

/-- **Whole numbers in programs and in input.** The text of a whole number is read as the number
from an input line. A program that displays that text as an expression displays the number. Only for
the smallest number it does not: there the source has an error, and the number is displayed by a
difference. -/
theorem whole_number_shown (v : Int64) (console : Console) (hwrites : console.writesLeft = none) :
    Entry.values (Value.int v).text = [.int v] ∧
      (v ≠ Int64.minValue → console.Displays (displaying (Value.int v).text) (Value.int v).text) ∧
      (v = Int64.minValue →
        (∀ steps, (Session.start console).run steps (displaying (Value.int v).text) =
          some (.error (.scan [⟨.malformedNumber "9223372036854775808", 1⟩]),
            Session.start console)) ∧
        console.Displays (displaying "-9223372036854775807 - 1") (Value.int v).text) := by
  refine ⟨?_, Session.displays_text hwrites, ?_⟩
  · rw [Value.text, Entry.values_of_plain fun c hc => Value.plain_of_mem_signedNumeral hc,
      Entry.fieldValue, Entry.int?_signedNumeral]
  · rintro rfl
    refine ⟨fun steps => ?_, Session.displays_smallest hwrites⟩
    rw [Session.run, Session.read_smallest]

/-- The number next to the smallest one, on an empty console. -/
theorem whole_number_shown_next :
    (Value.int (Int64.minValue + 1)).text = "-9223372036854775807" ∧
      Entry.values (Value.int (Int64.minValue + 1)).text = [.int (Int64.minValue + 1)] ∧
      Console.Displays {} (displaying (Value.int (Int64.minValue + 1)).text)
        (Value.int (Int64.minValue + 1)).text := by
  obtain ⟨hvalues, hshown, -⟩ := whole_number_shown (Int64.minValue + 1) {} rfl
  exact ⟨by decide +kernel, hvalues, hshown (by decide)⟩

/-- A program that holds the text of the smallest number does not run. -/
theorem smallest_not_shown :
    (Value.int Int64.minValue).text = "-9223372036854775808" ∧
      ¬ Console.Displays {} (displaying (Value.int Int64.minValue).text)
        (Value.int Int64.minValue).text := by
  refine ⟨by decide +kernel, ?_⟩
  rintro ⟨enough, hruns⟩
  have hrun := hruns enough (Nat.le_refl _)
  rw [Session.run, Session.read_smallest] at hrun
  cases hrun

end Sugod
