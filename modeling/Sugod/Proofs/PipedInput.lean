import Sugod.Piped
import Sugod.Proofs.Rows

/-!
# A program and the input behind it

Text that is piped in is divided behind the row of the first `KATAPUSAN`. The main statement is
`piped_division`: the program part consists of whole rows, it is scanned alone as it is scanned with
the text behind it, and no text behind it, whatever it is, moves the place of the division.

Rows are counted in two ways, by the scanner, which meets line feeds as pieces of the source, and by
`Text.cutRows`, which looks for them in the text. `CutBehind` is what they agree on.
-/

set_option autoImplicit false

namespace Sugod

namespace Text

/-! ## Lines with their ends -/

/-- The lines of a text, each with its line feed if it has one. -/
def endedLines (cs : List Char) : List (List Char) :=
  linesOfRows (fun row => row ++ ['\n']) id (split '\n' cs)

theorem endedLines_lineFeed (cs : List Char) :
    endedLines ('\n' :: cs) = ['\n'] :: endedLines cs := by
  unfold endedLines
  cases hs : split '\n' cs with
  | nil => exact absurd hs (split_ne_nil '\n' cs)
  | cons row rows => simp [split, hs, linesOfRows]

/-- A character in front of a text belongs to the first line. -/
theorem endedLines_cons {c : Char} (hc : c ≠ '\n') (cs : List Char) :
    endedLines (c :: cs) = grow c (endedLines cs) := by
  unfold endedLines
  cases hs : split '\n' cs with
  | nil => exact absurd hs (split_ne_nil '\n' cs)
  | cons row rows =>
    cases rows with
    | nil => cases row <;> simp [split, hc, hs, grow, linesOfRows]
    | cons next rows => simp [split, hc, hs, grow, linesOfRows]

/-- The lines of a text, with their ends, are the text. -/
theorem flatten_endedLines (cs : List Char) : (endedLines cs).flatten = cs := by
  induction cs with
  | nil => rfl
  | cons c cs ih =>
    by_cases hc : c = '\n'
    · subst hc
      rw [endedLines_lineFeed, List.flatten_cons, ih]
      rfl
    · rw [endedLines_cons hc]
      nth_rewrite 2 [← ih]
      cases endedLines cs <;> rfl

/-- **A text is cut behind its first `n` lines**; the lines keep their ends. -/
theorem cutRows_eq (n : Nat) (cs : List Char) :
    cutRows n cs = (((endedLines cs).take n).flatten, ((endedLines cs).drop n).flatten) := by
  induction cs generalizing n with
  | nil => cases n <;> rfl
  | cons c cs ih =>
    cases n with
    | zero =>
      rw [List.take_zero, List.drop_zero, flatten_endedLines]
      rfl
    | succ n =>
      by_cases hc : c = '\n'
      · subst hc
        simp [cutRows, ih n, endedLines_lineFeed]
      · have hrest := ih (n + 1)
        rw [endedLines_cons hc]
        cases hlines : endedLines cs <;> simp [cutRows, hc, hrest, hlines, grow]

/-- A text that is cut behind its row `n`: there are so many rows that end with a line feed, or
fewer and nothing is cut off. -/
inductive CutBehind (n : Nat) (cs : List Char) : List Char → List Char → Prop
  | row {a b : List Char} (hcs : cs = a ++ '\n' :: b) (hn : a.count '\n' + 1 = n) :
      CutBehind n cs (a ++ ['\n']) b
  | all (few : cs.count '\n' < n) : CutBehind n cs cs []

theorem cutRows_lineFeed (a b : List Char) :
    cutRows (a.count '\n' + 1) (a ++ '\n' :: b) = (a ++ ['\n'], b) := by
  induction a with
  | nil => cases b <;> rfl
  | cons c a ih =>
    by_cases hc : c = '\n'
    · subst hc
      simp [cutRows, ih]
    · simp [cutRows, hc, ih]

theorem cutRows_of_count_lt {n : Nat} {cs : List Char} (h : cs.count '\n' < n) :
    cutRows n cs = (cs, []) := by
  induction cs generalizing n with
  | nil => cases n <;> rfl
  | cons c cs ih =>
    cases n with
    | zero => omega
    | succ n =>
      by_cases hc : c = '\n'
      · subst hc
        have hrest : cs.count '\n' < n := by
          rw [List.count_cons_self] at h
          omega
        simp [cutRows, ih hrest]
      · have hrest : cs.count '\n' < n + 1 := by rwa [List.count_cons_of_ne hc] at h
        simp [cutRows, hc, ih hrest]

/-- A text with at least `n + 1` line feeds has one behind exactly `n` others. -/
theorem exists_lineFeed {n : Nat} {cs : List Char} (h : n < cs.count '\n') :
    ∃ a b, cs = a ++ '\n' :: b ∧ a.count '\n' = n := by
  induction cs generalizing n with
  | nil => simp at h
  | cons c cs ih =>
    by_cases hc : c = '\n'
    · subst hc
      cases n with
      | zero => exact ⟨[], cs, rfl, rfl⟩
      | succ n =>
        have hrest : n < cs.count '\n' := by
          rw [List.count_cons_self] at h
          omega
        obtain ⟨a, b, rfl, ha⟩ := ih hrest
        exact ⟨'\n' :: a, b, rfl, by rw [List.count_cons_self, ha]⟩
    · obtain ⟨a, b, rfl, ha⟩ := ih (by rwa [List.count_cons_of_ne hc] at h)
      exact ⟨c :: a, b, rfl, by rwa [List.count_cons_of_ne hc]⟩

theorem cutBehind_cutRows {n : Nat} (hn : 0 < n) (cs : List Char) :
    CutBehind n cs (cutRows n cs).1 (cutRows n cs).2 := by
  by_cases hfew : cs.count '\n' < n
  · rw [cutRows_of_count_lt hfew]
    exact .all hfew
  · have hmany : n - 1 < cs.count '\n' := by omega
    obtain ⟨a, b, rfl, ha⟩ := exists_lineFeed hmany
    have hrow : a.count '\n' + 1 = n := by omega
    rw [← hrow, cutRows_lineFeed]
    exact .row rfl rfl

end Text

namespace Scan

open Piece Text

variable {α : Type} {f : Nat → Piece → Option α} {lineOf : α → Nat}

/-! ## Where things are found -/

theorem le_foldl_nextLine (line : Nat) (ps : List Piece) : line ≤ ps.foldl nextLine line := by
  induction ps generalizing line with
  | nil => exact Nat.le_refl line
  | cons p ps ih =>
    have hnext : line ≤ nextLine line p := by
      unfold nextLine
      split <;> omega
    exact Nat.le_trans hnext (ih (nextLine line p))

/-- What is found in some pieces stands on one of their lines. -/
theorem line_of_mem_collect (hf : ∀ line p x, f line p = some x → lineOf x = line)
    {line : Nat} {ps : List Piece} {x : α} (h : x ∈ collect f line ps) :
    line ≤ lineOf x ∧ lineOf x ≤ ps.foldl nextLine line := by
  induction ps generalizing line with
  | nil => cases h
  | cons p ps ih =>
    have hnext : line ≤ nextLine line p := le_foldl_nextLine line [p]
    rcases List.mem_append.mp h with h | h
    · have hline : lineOf x = line := hf line p x (Option.mem_toList.mp h)
      have hlast := le_foldl_nextLine (nextLine line p) ps
      rw [List.foldl_cons]
      omega
    · have hrest := ih h
      rw [List.foldl_cons]
      omega

theorem line_of_mem_pieces (hf : ∀ line p x, f line p = some x → lineOf x = line)
    {cs : List Char} {x : α} (h : x ∈ collect f 1 (pieces cs)) :
    1 ≤ lineOf x ∧ lineOf x ≤ 1 + cs.count '\n' := by
  rw [← foldl_nextLine_pieces cs 1]
  exact line_of_mem_collect hf h

/-- **What is found in the rows up to `n` is what is found in the whole text on these rows.** -/
theorem collect_of_cutBehind {g : Nat → α → α}
    (hf : ∀ line p x, f line p = some x → lineOf x = line)
    (hfeed : ∀ line, f line lineFeed = none)
    (hfg : ∀ line k p, f (line + k) p = (f line p).map (g k))
    (hdown : ∀ k x, lineOf (g k x) = lineOf x + k)
    {n : Nat} {cs a b : List Char} (h : CutBehind n cs a b) :
    collect f 1 (pieces a) = (collect f 1 (pieces cs)).filter fun x => lineOf x ≤ n := by
  have hlines : ∀ {cs : List Char} {x : α}, x ∈ collect f 1 (pieces cs) → _ :=
    line_of_mem_pieces hf
  cases h with
  | @row a _ hcs hn =>
    have hbefore : (collect f 1 (pieces a)).filter (fun x => lineOf x ≤ n) =
        collect f 1 (pieces a) := by
      refine List.filter_eq_self.mpr fun x hx => decide_eq_true ?_
      have hx := hlines hx
      omega
    have hbehind : ((collect f 1 (pieces b)).map (g (1 + a.count '\n'))).filter
        (fun x => lineOf x ≤ n) = [] := by
      refine List.filter_eq_nil_iff.mpr fun x hx hle => ?_
      obtain ⟨y, hy, rfl⟩ := List.mem_map.mp hx
      have hy := hlines hy
      have hle := of_decide_eq_true hle
      rw [hdown] at hle
      omega
    rw [hcs, collect_pieces_append hfeed hfg, collect_pieces_append hfeed hfg, List.filter_append,
      hbefore, hbehind]
    rfl
  | all few =>
    refine (List.filter_eq_self.mpr fun x hx => decide_eq_true ?_).symm
    have hx := hlines hx
    omega

theorem line_of_token? (line : Nat) (p : Piece) (t : Token) (h : token? line p = some t) :
    t.line = line := by
  unfold token? at h
  split at h <;> cases h
  rfl

theorem line_of_error? (line : Nat) (p : Piece) (e : ScanError) (h : error? line p = some e) :
    e.line = line := by
  unfold error? at h
  split at h <;> cases h
  rfl

theorem proper_of_cutBehind {n : Nat} {cs a b : List Char} (h : CutBehind n cs a b) :
    proper a = (proper cs).filter fun t => t.line ≤ n :=
  collect_of_cutBehind line_of_token? (fun _ => rfl) token?_add (fun _ _ => rfl) h

theorem errors_of_cutBehind {n : Nat} {cs a b : List Char} (h : CutBehind n cs a b) :
    (ofChars a).errors = (ofChars cs).errors.filter fun e => e.line ≤ n :=
  collect_of_cutBehind line_of_error? (fun _ => rfl) error?_add (fun _ _ => rfl) h

/-- The end token is no keyword, so a keyword is found among the other tokens. -/
theorem find?_tokens (m : Mark) (cs : List Char) :
    (ofChars cs).tokens.find? (Token.is m) = (proper cs).find? (Token.is m) := by
  show (proper cs ++ [endToken cs]).find? (Token.is m) = _
  rw [List.find?_append]
  exact Option.or_none

end Scan

namespace Piped

open Scan Text

/-! ## The division of a text -/

/-- What it means that a text is divided behind one of its rows. -/
structure DividedBehind (line : Nat) (source : List Char) (p : Piped) : Prop where
  /-- The program is the first lines of the source, with their ends. -/
  program : p.program = ((endedLines source).take line).flatten
  /-- The input is what stands behind the program, line by line. -/
  input : ∃ rest, p.program ++ rest = source ∧ p.input = lines rest
  /-- The program alone has the tokens that it has in the source. -/
  tokens : (ofChars p.program).tokens.filter (fun t => !t.kind.isEof) =
    (ofChars source).tokens.filter fun t => t.line ≤ line && !t.kind.isEof
  /-- The program alone has the errors that it has in the source. -/
  errors : (ofChars p.program).errors = (ofChars source).errors.filter fun e => e.line ≤ line
  /-- Behind a program that ends with a line feed any text is input. -/
  stable : p.program.getLast? = some '\n' → ∀ text : List Char,
    ofSource (p.program ++ text) = ⟨p.program, lines text⟩

theorem ofSource_of_find? {source : List Char} {t : Token}
    (h : (proper source).find? (Token.is .katapusan) = some t) :
    ofSource source = ⟨(cutRows t.line source).1, lines (cutRows t.line source).2⟩ := by
  unfold ofSource lastLine?
  rw [h]
  rfl

/-- A text in which the first `KATAPUSAN` stands in front of a certain line feed is divided behind
it, whatever follows. -/
theorem ofSource_append {a : List Char} {t : Token}
    (h : (proper a).find? (Token.is .katapusan) = some t) (hline : a.count '\n' + 1 = t.line)
    (text : List Char) : ofSource (a ++ '\n' :: text) = ⟨a ++ ['\n'], lines text⟩ := by
  have hfound : (proper (a ++ '\n' :: text)).find? (Token.is .katapusan) = some t := by
    rw [proper_append, List.find?_append, h]
    rfl
  rw [ofSource_of_find? hfound, ← hline, cutRows_lineFeed]

/-- The first `KATAPUSAN` of a source is the first one of the program part. -/
theorem find?_of_cutBehind {source a b : List Char} {t : Token}
    (h : (proper source).find? (Token.is .katapusan) = some t)
    (hcut : CutBehind t.line source a b) :
    (proper a).find? (Token.is .katapusan) = some t := by
  rw [proper_of_cutBehind hcut]
  obtain ⟨hp, as, bs, heq, hnone⟩ := List.find?_eq_some_iff_append.mp h
  have hfirst : (as.filter fun u => u.line ≤ t.line).find? (Token.is .katapusan) = none := by
    refine List.find?_eq_none.mpr fun u hu hmark => ?_
    have hmem := hnone u (List.mem_filter.mp hu).1
    simp [hmark] at hmem
  rw [heq, List.filter_append, List.find?_append, hfirst, List.filter_cons]
  simp [hp]

theorem dividedBehind_of_find? {source : List Char} {t : Token}
    (h : (proper source).find? (Token.is .katapusan) = some t) :
    DividedBehind t.line source (ofSource source) := by
  have hlines : ∀ {cs : List Char} {u : Token}, u ∈ proper cs → _ :=
    line_of_mem_pieces line_of_token?
  have hpos : 0 < t.line := (hlines (List.mem_of_find?_eq_some h)).1
  have hcut := cutBehind_cutRows hpos source
  rw [ofSource_of_find? h]
  refine ⟨?_, ⟨_, cutRows_append t.line source, rfl⟩, ?_, errors_of_cutBehind hcut, ?_⟩
  · rw [cutRows_eq]
  · rw [filter_tokens, proper_of_cutBehind hcut, ← filter_tokens source, List.filter_filter]
  · intro hlast text
    have hfound := find?_of_cutBehind h hcut
    generalize (cutRows t.line source).1 = program at hcut hlast hfound
    generalize (cutRows t.line source).2 = rest at hcut
    cases hcut with
    | row hcs hn =>
      rw [proper_append_lineFeed] at hfound
      rw [List.append_assoc]
      exact ofSource_append hfound hn text
    | all few =>
      -- Too few rows: all tokens would stand in front of the last line feed.
      obtain ⟨a, rfl⟩ := List.getLast?_eq_some_iff.mp hlast
      rw [proper_append_lineFeed] at hfound
      have hline := hlines (List.mem_of_find?_eq_some hfound)
      rw [List.count_append, List.count_singleton_self] at few
      omega

end Piped

/-- **Input lines never change a piped program.** A text without the keyword `KATAPUSAN` is all
program. Otherwise it is divided behind the row of the first one: the program consists of these
rows, what stands behind is the input, the program is scanned alone as in the whole text, and behind
its last line feed any other text is input too. -/
theorem piped_division (source : List Char) :
    ((Scan.ofChars source).tokens.find? (Token.is .katapusan) = none →
      Piped.ofSource source = ⟨source, []⟩) ∧
    (∀ t, (Scan.ofChars source).tokens.find? (Token.is .katapusan) = some t →
      Piped.DividedBehind t.line source (Piped.ofSource source)) := by
  rw [Scan.find?_tokens]
  refine ⟨fun hnone => ?_, fun t ht => Piped.dividedBehind_of_find? ht⟩
  unfold Piped.ofSource Piped.lastLine?
  rw [hnone]
  rfl

/-- A program on two rows, behind which stand a broken literal and a further `KATAPUSAN`. -/
def pipedSource : List Char :=
  "SUGOD # KATAPUSAN\nKATAPUSAN 'x\n\"7, KATAPUSAN\nKATAPUSAN".toList

theorem piped_division_twoRows :
    (Scan.ofChars pipedSource).tokens.find? (Token.is .katapusan) =
      some ⟨.mark .katapusan, "KATAPUSAN", 2⟩ ∧
    ∀ text : List Char, Piped.ofSource ("SUGOD # KATAPUSAN\nKATAPUSAN 'x\n".toList ++ text) =
      ⟨"SUGOD # KATAPUSAN\nKATAPUSAN 'x\n".toList, Text.lines text⟩ := by
  have hfound : (Scan.ofChars pipedSource).tokens.find? (Token.is .katapusan) =
      some ⟨.mark .katapusan, "KATAPUSAN", 2⟩ := rfl
  have hdivided := (piped_division pipedSource).2 _ hfound
  have hprogram : (Piped.ofSource pipedSource).program =
      "SUGOD # KATAPUSAN\nKATAPUSAN 'x\n".toList := rfl
  refine ⟨hfound, fun text => ?_⟩
  rw [← hprogram]
  exact hdivided.stable rfl text

end Sugod
