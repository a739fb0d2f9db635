import Sugod.Token.Scan
import Mathlib.Data.List.TakeWhile
import Mathlib.Tactic.Common

/-!
# Scanning by rows

A source is cut in one pass, and many of its pieces look ahead: operators of two characters,
literals in quotes or brackets, fractions, letters behind a number, comments, keywords of two words.
This module shows that none of them looks beyond a line feed. Each takes a line feed for the end of
the source (`Piece.StaysInRow`), so a source can be cut at any line feed and its parts scanned apart
(`scan_append_lineFeed`).
-/

set_option autoImplicit false

namespace Sugod

namespace Piece

variable {p : Char → Bool} {close : Char} {cs rest : List Char}

/-! ## Text in front of a line feed -/

/-- A run of characters that are no line feeds ends at a line feed as it does at the end. -/
theorem takeWhile_append_lineFeed (hp : p '\n' = false) (cs rest : List Char) :
    (cs ++ '\n' :: rest).takeWhile p = cs.takeWhile p := by
  induction cs with
  | nil => simp [hp]
  | cons c cs ih =>
    by_cases hc : p c = true
    · simp [hc, ih]
    · simp [hc]

theorem dropWhile_append_lineFeed (hp : p '\n' = false) (cs rest : List Char) :
    (cs ++ '\n' :: rest).dropWhile p = cs.dropWhile p ++ '\n' :: rest := by
  induction cs with
  | nil => simp [hp]
  | cons c cs ih =>
    by_cases hc : p c = true
    · simp [hc, ih]
    · simp [hc]

theorem head?_append_lineFeed (hclose : close ≠ '\n') :
    (cs ++ '\n' :: rest).head? = some close ↔ cs.head? = some close := by
  cases cs with
  | nil => simp [Ne.symm hclose]
  | cons c cs => simp

theorem any_head?_append_lineFeed (hp : p '\n' = false) (cs rest : List Char) :
    (cs ++ '\n' :: rest).head?.any p = cs.head?.any p := by
  cases cs with
  | nil => simp [hp]
  | cons c cs => simp

theorem isPrefixOf_append_lineFeed {word : List Char} (hword : '\n' ∉ word) (cs rest : List Char) :
    word.isPrefixOf (cs ++ '\n' :: rest) = word.isPrefixOf cs := by
  induction word generalizing cs with
  | nil => simp
  | cons w word ih =>
    obtain ⟨hw, hword⟩ : '\n' ≠ w ∧ '\n' ∉ word := by simpa using hword
    cases cs with
    | nil => simp [List.isPrefixOf, Ne.symm hw]
    | cons c cs => simp [List.isPrefixOf, ih hword cs]

/-! ## What looks ahead stays in its row -/

/-- What `g` finds at the start of a text, and how much of the text it takes, is the same whether
the text ends there or goes on behind a line feed; and it takes no more than there is. -/
structure StaysInRow (g : List Char → Finding × Nat) : Prop where
  le_length : ∀ cs, (g cs).2 ≤ cs.length
  append : ∀ cs rest, g (cs ++ '\n' :: rest) = g cs

/-- An operator is read up to the end of its row. -/
theorem mark?_append (c : Char) (cs rest : List Char) :
    mark? c (cs ++ '\n' :: rest) = mark? c cs := by
  cases cs with
  | nil =>
    have hnewline : '\n' ≠ '=' ∧ '\n' ≠ '>' := by decide
    unfold mark?
    split <;> simp_all
  | cons d cs =>
    unfold mark?
    split <;> simp_all

theorem mark?_le_length {c : Char} {m : Mark} {n : Nat} (h : mark? c cs = some (m, n)) :
    n ≤ cs.length := by
  unfold mark? at h
  split at h <;> cases h <;> simp

theorem upTo_append (close : Char) (cs rest : List Char) :
    upTo close (cs ++ '\n' :: rest) = upTo close cs :=
  takeWhile_append_lineFeed (by simp) cs rest

theorem length_upTo_le (close : Char) (cs : List Char) : (upTo close cs).length ≤ cs.length :=
  (List.takeWhile_prefix _).length_le

theorem closes_append (hclose : close ≠ '\n') (cs rest : List Char) :
    closes close (cs ++ '\n' :: rest) = closes close cs := by
  unfold closes
  rw [upTo_append, List.drop_append_of_le_length (length_upTo_le close cs)]
  exact decide_eq_decide.mpr (head?_append_lineFeed hclose)

/-- A closing character stands behind what it closes. -/
theorem length_upTo_lt (h : closes close cs = true) : (upTo close cs).length < cs.length := by
  have hhead : (cs.drop (upTo close cs).length).head? = some close := of_decide_eq_true h
  by_contra hge
  rw [List.drop_of_length_le (Nat.le_of_not_lt hge)] at hhead
  cases hhead

theorem string_staysInRow : StaysInRow string where
  le_length cs := by
    unfold string
    split
    · rename_i hcloses
      exact length_upTo_lt hcloses
    · exact length_upTo_le _ cs
  append cs rest := by
    have hquote : '"' ≠ '\n' := by decide
    unfold string
    rw [closes_append hquote, upTo_append]

theorem enclosed?_append (hclose : close ≠ '\n') (cs rest : List Char) :
    enclosed? close (cs ++ '\n' :: rest) = enclosed? close cs := by
  match cs with
  | [] => cases rest <;> simp [enclosed?]
  | [c] => simp [enclosed?, Ne.symm hclose]
  | c :: d :: cs => rfl

theorem two_le_of_enclosed? {c : Char} (h : enclosed? close cs = some c) : 2 ≤ cs.length := by
  match cs with
  | [] | [_] => cases h
  | _ :: _ :: _ => simp

theorem quotedChar_staysInRow : StaysInRow quotedChar where
  le_length cs := by
    unfold quotedChar
    split
    · rename_i henclosed
      exact two_le_of_enclosed? henclosed
    · show (if closes '\'' cs then (upTo '\'' cs).length + 1 else (upTo '\'' cs).length) ≤ cs.length
      split
      · rename_i hcloses
        exact length_upTo_lt hcloses
      · exact length_upTo_le _ cs
  append cs rest := by
    have hquote : '\'' ≠ '\n' := by decide
    unfold quotedChar
    rw [enclosed?_append hquote, closes_append hquote, upTo_append]

theorem bracketedChar_staysInRow : StaysInRow bracketedChar where
  le_length cs := by
    unfold bracketedChar
    split
    · rename_i henclosed
      exact two_le_of_enclosed? henclosed
    · exact Nat.zero_le _
  append cs rest := by
    have hbracket : ']' ≠ '\n' := by decide
    unfold bracketedChar
    rw [enclosed?_append hbracket]

/-! ### Numbers -/

theorem fraction_append (cs rest : List Char) : fraction (cs ++ '\n' :: rest) = fraction cs := by
  cases cs with
  | nil => rfl
  | cons c cs =>
    by_cases hc : c = '.'
    · subst hc
      exact takeWhile_append_lineFeed (by decide) cs rest
    · simp [fraction, hc]

theorem length_fraction_lt (h : (fraction cs).isEmpty = false) :
    (fraction cs).length < cs.length := by
  unfold fraction at h ⊢
  split at h
  · exact Nat.lt_succ_of_le (List.takeWhile_prefix _).length_le
  · cases h

/-- The number of characters behind the first digit that belong to a number. -/
def numberLength (cs : List Char) : Nat :=
  if (fraction (cs.dropWhile Char.isDigit)).isEmpty then (cs.takeWhile Char.isDigit).length
  else (cs.takeWhile Char.isDigit).length + 1 + (fraction (cs.dropWhile Char.isDigit)).length

theorem numberLength_append (cs rest : List Char) :
    numberLength (cs ++ '\n' :: rest) = numberLength cs := by
  have hdigit : Char.isDigit '\n' = false := by decide
  unfold numberLength
  rw [takeWhile_append_lineFeed hdigit, dropWhile_append_lineFeed hdigit, fraction_append]

theorem numberLength_le (cs : List Char) : numberLength cs ≤ cs.length := by
  have hsplit : (cs.takeWhile Char.isDigit).length + (cs.dropWhile Char.isDigit).length =
      cs.length := by
    rw [← List.length_append, List.takeWhile_append_dropWhile]
  unfold numberLength
  split
  · omega
  · rename_i hfraction
    have hlt := length_fraction_lt (Bool.not_eq_true _ ▸ hfraction)
    omega

theorem number_eq (c : Char) (cs : List Char) :
    number c cs =
      if !((cs.drop (numberLength cs)).takeWhile isWordChar).isEmpty then
        (.error .charAfterNumber,
          numberLength cs + ((cs.drop (numberLength cs)).takeWhile isWordChar).length)
      else if (fraction (cs.dropWhile Char.isDigit)).isEmpty then
        (intFinding (c :: cs.takeWhile Char.isDigit), numberLength cs)
      else
        (.token (floatKind (c :: cs.takeWhile Char.isDigit) (fraction (cs.dropWhile Char.isDigit))),
          numberLength cs) := rfl

theorem number_staysInRow (c : Char) : StaysInRow (number c) where
  le_length cs := by
    have hlength := numberLength_le cs
    have htail : ((cs.drop (numberLength cs)).takeWhile isWordChar).length ≤
        (cs.drop (numberLength cs)).length := (List.takeWhile_prefix _).length_le
    rw [List.length_drop] at htail
    rw [number_eq]
    split
    · show numberLength cs + ((cs.drop (numberLength cs)).takeWhile isWordChar).length ≤ cs.length
      omega
    · split <;> exact hlength
  append cs rest := by
    have hdigit : Char.isDigit '\n' = false := by decide
    have hword : isWordChar '\n' = false := by decide
    rw [number_eq, number_eq, numberLength_append,
      List.drop_append_of_le_length (numberLength_le cs), takeWhile_append_lineFeed hword,
      dropWhile_append_lineFeed hdigit, fraction_append, takeWhile_append_lineFeed hdigit]

/-! ### Words -/

theorem follows?_append {word : List Char} (hword : '\n' ∉ word) (cs rest : List Char) :
    follows? word (cs ++ '\n' :: rest) = follows? word cs := by
  have hgap : isGap '\n' = false := by decide
  have hchar : isWordChar '\n' = false := by decide
  simp only [follows?]
  rw [takeWhile_append_lineFeed hgap, dropWhile_append_lineFeed hgap,
    isPrefixOf_append_lineFeed hword]
  -- What stands behind the word matters only if the word is there, and then it lies in the row.
  by_cases hstarts : word.isPrefixOf (cs.dropWhile isGap) = true
  · have hlength : word.length ≤ (cs.dropWhile isGap).length :=
      (List.isPrefixOf_iff_prefix.mp hstarts).length_le
    rw [List.drop_append_of_le_length hlength, any_head?_append_lineFeed hchar]
  · simp [hstarts]

theorem follows?_le_length {word : List Char} {n : Nat} (h : follows? word cs = some n) :
    n ≤ cs.length := by
  have hsplit : (cs.takeWhile isGap).length + (cs.dropWhile isGap).length = cs.length := by
    rw [← List.length_append, List.takeWhile_append_dropWhile]
  simp only [follows?] at h
  split at h
  · rename_i hfollows
    have hstarts : word.isPrefixOf (cs.dropWhile isGap) = true :=
      (Bool.and_eq_true_iff.mp hfollows).1
    have hlength := (List.isPrefixOf_iff_prefix.mp hstarts).length_le
    cases h
    omega
  · cases h

theorem wordKind_append (word cs rest : List Char) :
    wordKind word (cs ++ '\n' :: rest) = wordKind word cs := by
  unfold wordKind
  rw [follows?_append (by decide), follows?_append (by decide), follows?_append (by decide)]

theorem wordKind_le_length (word cs : List Char) : (wordKind word cs).2 ≤ cs.length := by
  unfold wordKind
  split
  · split
    · rename_i hfollows
      exact follows?_le_length hfollows
    · split
      · rename_i hfollows
        exact follows?_le_length hfollows
      · exact Nat.zero_le _
  · split
    · split
      · rename_i hfollows
        exact follows?_le_length hfollows
      · exact Nat.zero_le _
    · split <;> exact Nat.zero_le _

theorem word_eq (c : Char) (cs : List Char) :
    word c cs =
      (.token (wordKind (c :: cs.takeWhile isWordChar) (cs.dropWhile isWordChar)).1,
        (cs.takeWhile isWordChar).length +
          (wordKind (c :: cs.takeWhile isWordChar) (cs.dropWhile isWordChar)).2) := rfl

theorem word_staysInRow (c : Char) : StaysInRow (word c) where
  le_length cs := by
    have hsplit : (cs.takeWhile isWordChar).length + (cs.dropWhile isWordChar).length =
        cs.length := by
      rw [← List.length_append, List.takeWhile_append_dropWhile]
    have hkind := wordKind_le_length (c :: cs.takeWhile isWordChar) (cs.dropWhile isWordChar)
    rw [word_eq]
    show (cs.takeWhile isWordChar).length + _ ≤ cs.length
    omega
  append cs rest := by
    have hword : isWordChar '\n' = false := by decide
    rw [word_eq, word_eq, takeWhile_append_lineFeed hword, dropWhile_append_lineFeed hword,
      wordKind_append]

/-- A comment ends in front of the line feed. -/
theorem comment_staysInRow : StaysInRow fun cs => (.skip, (restOfRow cs).length) where
  le_length _ := (List.takeWhile_prefix _).length_le
  append cs rest := by
    show (Finding.skip, (restOfRow (cs ++ '\n' :: rest)).length) = _
    unfold restOfRow
    rw [takeWhile_append_lineFeed (by decide)]

/-- **No piece looks beyond a line feed**, whatever character it starts with. -/
theorem first_staysInRow (c : Char) : StaysInRow (first c) where
  le_length cs := by
    unfold first
    split
    · rename_i hmark
      exact mark?_le_length hmark
    · repeat' split
      · exact Nat.zero_le _
      · exact Nat.zero_le _
      · exact comment_staysInRow.le_length cs
      · exact Nat.zero_le _
      · exact string_staysInRow.le_length cs
      · exact quotedChar_staysInRow.le_length cs
      · exact bracketedChar_staysInRow.le_length cs
      · exact (number_staysInRow c).le_length cs
      · exact (word_staysInRow c).le_length cs
      · exact Nat.zero_le _
  append cs rest := by
    have hcomment := comment_staysInRow.append cs rest
    unfold first
    rw [mark?_append, string_staysInRow.append, quotedChar_staysInRow.append,
      bracketedChar_staysInRow.append, (number_staysInRow c).append, (word_staysInRow c).append]
    simp only [hcomment]

/-! ## A source in parts -/

/-- The piece that a line feed is. -/
def lineFeed : Piece :=
  ⟨.lineFeed, ['\n']⟩

theorem pieces_lineFeed (cs : List Char) : pieces ('\n' :: cs) = lineFeed :: pieces cs :=
  pieces_cons '\n' cs

/-- **A source is cut at a line feed into the pieces before it and the pieces after it.** -/
theorem pieces_append (a b : List Char) :
    pieces (a ++ '\n' :: b) = pieces a ++ lineFeed :: pieces b := by
  induction h : a.length using Nat.strongRecOn generalizing a with
  | _ n ih =>
    cases a with
    | nil => exact pieces_lineFeed b
    | cons c cs =>
      have stays := first_staysInRow c
      have hle := stays.le_length cs
      have hshorter : (cs.drop (first c cs).2).length < n := by
        rw [List.length_drop, ← h, List.length_cons]
        omega
      have hrest := ih _ hshorter (cs.drop (first c cs).2) rfl
      rw [List.cons_append, pieces_cons, pieces_cons, stays.append,
        List.take_append_of_le_length hle, List.drop_append_of_le_length hle, hrest,
        List.cons_append]

end Piece

/-! ## The numbers of rows -/

/-- A finding that leaves the number of the row as it is and does not end the source. -/
def Finding.IsOrdinary : Finding → Prop
  | .skip => True
  | .lineFeed => False
  | .token kind => kind ≠ .eof
  | .error _ => True

namespace Piece

theorem stringKind_ne_eof (text : List Char) : stringKind text ≠ .eof := by
  unfold stringKind
  split
  · exact Kind.noConfusion
  · split <;> exact Kind.noConfusion

theorem wordKind_ne_eof (word cs : List Char) : (wordKind word cs).1 ≠ .eof := by
  unfold wordKind
  repeat' split
  all_goals exact Kind.noConfusion

theorem isOrdinary_string (cs : List Char) : (string cs).1.IsOrdinary := by
  unfold string
  split
  · exact stringKind_ne_eof _
  · trivial

theorem isOrdinary_quotedChar (cs : List Char) : (quotedChar cs).1.IsOrdinary := by
  unfold quotedChar
  split
  · exact Kind.noConfusion
  · trivial

theorem isOrdinary_bracketedChar (cs : List Char) : (bracketedChar cs).1.IsOrdinary := by
  unfold bracketedChar
  split
  · exact Kind.noConfusion
  · trivial

theorem isOrdinary_number (c : Char) (cs : List Char) : (number c cs).1.IsOrdinary := by
  rw [number_eq]
  split
  · trivial
  · split
    · show (intFinding _).IsOrdinary
      unfold intFinding
      split
      · exact Kind.noConfusion
      · trivial
    · exact Kind.noConfusion

/-- Only a line feed starts a new row. -/
theorem isOrdinary_first {c : Char} (hc : c ≠ '\n') (cs : List Char) :
    (first c cs).1.IsOrdinary := by
  unfold first
  split
  · exact Kind.noConfusion
  · repeat' split
    · trivial
    · trivial
    · exact Kind.noConfusion
    · exact isOrdinary_string cs
    · exact isOrdinary_quotedChar cs
    · exact isOrdinary_bracketedChar cs
    · exact isOrdinary_number c cs
    · exact wordKind_ne_eof _ _
    · trivial

/-- A piece is a line feed or ordinary. -/
theorem eq_lineFeed_or_isOrdinary {cs : List Char} {piece : Piece} (h : piece ∈ pieces cs) :
    ('\n' ∈ cs ∧ piece = lineFeed) ∨ piece.finding.IsOrdinary := by
  induction hn : cs.length using Nat.strongRecOn generalizing cs with
  | _ n ih =>
    cases cs with
    | nil => cases h
    | cons c cs =>
      rw [pieces_cons] at h
      rcases List.mem_cons.mp h with rfl | h
      · by_cases hc : c = '\n'
        · subst hc
          exact .inl ⟨List.mem_cons_self, rfl⟩
        · exact .inr (isOrdinary_first hc cs)
      · have hshorter : (cs.drop (first c cs).2).length < n := by
          rw [List.length_drop, ← hn, List.length_cons]
          omega
        rcases ih _ hshorter h rfl with ⟨hmem, hpiece⟩ | hordinary
        · exact .inl ⟨List.mem_cons_of_mem c (List.mem_of_mem_drop hmem), hpiece⟩
        · exact .inr hordinary

end Piece

namespace Scan

open Piece

theorem nextLine_of_isOrdinary {p : Piece} (h : p.finding.IsOrdinary) (line : Nat) :
    nextLine line p = line := by
  unfold nextLine
  cases hp : p.finding with
  | lineFeed =>
    rw [hp] at h
    exact h.elim
  | _ => rfl

theorem foldl_nextLine_of_ordinary {ps : List Piece} (h : ∀ p ∈ ps, p.finding.IsOrdinary)
    (line : Nat) : ps.foldl nextLine line = line := by
  induction ps with
  | nil => rfl
  | cons p ps ih =>
    rw [List.foldl_cons, nextLine_of_isOrdinary (h p (by simp))]
    exact ih fun q hq => h q (by simp [hq])

/-- **The rows are counted by the line feeds of the text.** -/
theorem foldl_nextLine_pieces (cs : List Char) (line : Nat) :
    (pieces cs).foldl nextLine line = line + cs.count '\n' := by
  induction hn : cs.length using Nat.strongRecOn generalizing cs line with
  | _ n ih =>
    by_cases hmem : '\n' ∈ cs
    · obtain ⟨a, b, rfl, ha⟩ := List.eq_append_cons_of_mem hmem
      have hordinary : ∀ p ∈ pieces a, p.finding.IsOrdinary := by
        intro p hp
        rcases eq_lineFeed_or_isOrdinary hp with ⟨hfeed, -⟩ | h
        · exact absurd hfeed ha
        · exact h
      have hshorter : b.length < n := by
        rw [← hn, List.length_append, List.length_cons]
        omega
      have hrest := ih b.length hshorter b (line + 1) rfl
      have hfeed : nextLine line lineFeed = line + 1 := rfl
      rw [pieces_append, List.foldl_append, foldl_nextLine_of_ordinary hordinary, List.foldl_cons,
        hfeed, hrest, List.count_append, List.count_cons_self, List.count_eq_zero.mpr ha]
      omega
    · rw [List.count_eq_zero.mpr hmem]
      refine foldl_nextLine_of_ordinary (fun p hp => ?_) line
      rcases eq_lineFeed_or_isOrdinary hp with ⟨hfeed, -⟩ | h
      · exact absurd hfeed hmem
      · exact h

/-- What is collected further down is what is collected here, moved down. -/
theorem collect_add {α : Type} {f : Nat → Piece → Option α} {g : α → α} {k : Nat}
    (hfg : ∀ line p, f (line + k) p = (f line p).map g) (line : Nat) (ps : List Piece) :
    collect f (line + k) ps = (collect f line ps).map g := by
  induction ps generalizing line with
  | nil => rfl
  | cons p ps ih =>
    have hnext : nextLine (line + k) p = nextLine line p + k := by
      unfold nextLine
      split <;> omega
    rw [collect, collect, hnext, ih, hfg, List.map_append]
    cases f line p <;> rfl

end Scan

/-- The same token, a number of lines further down. -/
def Token.down (k : Nat) (t : Token) : Token :=
  { t with line := t.line + k }

/-- The same error, a number of lines further down. -/
def ScanError.down (k : Nat) (e : ScanError) : ScanError :=
  { e with line := e.line + k }

namespace Scan

open Piece

theorem token?_add (line k : Nat) (p : Piece) :
    token? (line + k) p = (token? line p).map (Token.down k) := by
  unfold token?
  split <;> rfl

theorem error?_add (line k : Nat) (p : Piece) :
    error? (line + k) p = (error? line p).map (ScanError.down k) := by
  unfold error?
  split <;> rfl

/-- What is found behind a line feed is what is found in the text behind it alone, moved down. -/
theorem collect_pieces_append {α : Type} {f : Nat → Piece → Option α} {g : Nat → α → α}
    (hfeed : ∀ line, f line lineFeed = none)
    (hfg : ∀ line k p, f (line + k) p = (f line p).map (g k)) (a b : List Char) :
    collect f 1 (pieces (a ++ '\n' :: b)) =
      collect f 1 (pieces a) ++ (collect f 1 (pieces b)).map (g (1 + a.count '\n')) := by
  have hline : nextLine (1 + a.count '\n') lineFeed = 1 + (1 + a.count '\n') :=
    Nat.add_comm _ _
  rw [pieces_append, collect_append, foldl_nextLine_pieces, collect, hfeed, Option.toList_none,
    List.nil_append, hline]
  rw [collect_add (hfg · (1 + a.count '\n'))]

theorem proper_append (a b : List Char) :
    proper (a ++ '\n' :: b) = proper a ++ (proper b).map (Token.down (1 + a.count '\n')) :=
  collect_pieces_append (fun _ => rfl) token?_add a b

theorem errors_append (a b : List Char) :
    (ofChars (a ++ '\n' :: b)).errors =
      (ofChars a).errors ++ (ofChars b).errors.map (ScanError.down (1 + a.count '\n')) :=
  collect_pieces_append (fun _ => rfl) error?_add a b

theorem proper_append_lineFeed (a : List Char) : proper (a ++ ['\n']) = proper a := by
  rw [proper_append]
  exact List.append_nil _

theorem errors_append_lineFeed (a : List Char) :
    (ofChars (a ++ ['\n'])).errors = (ofChars a).errors := by
  rw [errors_append]
  exact List.append_nil _

theorem endToken_append (a b : List Char) :
    endToken (a ++ '\n' :: b) = (endToken b).down (1 + a.count '\n') := by
  have hcount : 1 + (a ++ '\n' :: b).count '\n' = 1 + b.count '\n' + (1 + a.count '\n') := by
    rw [List.count_append, List.count_cons_self]
    omega
  unfold endToken
  rw [foldl_nextLine_pieces, foldl_nextLine_pieces, hcount]
  rfl

theorem isEof_of_mem_collect {line : Nat} {ps : List Piece}
    (h : ∀ p ∈ ps, p.finding ≠ .token .eof) {t : Token} (ht : t ∈ collect token? line ps) :
    t.kind.isEof = false := by
  induction ps generalizing line with
  | nil => cases ht
  | cons p ps ih =>
    rcases List.mem_append.mp ht with ht | ht
    · have htoken : token? line p = some t := Option.mem_toList.mp ht
      unfold token? at htoken
      split at htoken
      · rename_i kind hkind
        cases htoken
        refine Bool.eq_false_iff.mpr fun heof => h p (by simp) ?_
        exact hkind.trans (congrArg Finding.token (Kind.isEof_iff.mp heof))
      · cases htoken
    · exact ih (fun q hq => h q (by simp [hq])) ht

/-- Only the last token of a source is an end token. -/
theorem isEof_of_mem_proper {cs : List Char} {t : Token} (h : t ∈ proper cs) :
    t.kind.isEof = false := by
  refine isEof_of_mem_collect (fun p hp heof => ?_) h
  rcases eq_lineFeed_or_isOrdinary hp with ⟨-, rfl⟩ | hordinary
  · cases heof
  · rw [heof] at hordinary
    exact hordinary rfl

/-- The tokens of a source without its end token. -/
theorem filter_tokens (cs : List Char) :
    (ofChars cs).tokens.filter (fun t => !t.kind.isEof) = proper cs := by
  have hproper : (proper cs).filter (fun t => !t.kind.isEof) = proper cs :=
    List.filter_eq_self.mpr fun t ht => by rw [isEof_of_mem_proper ht]; rfl
  show (proper cs ++ [endToken cs]).filter (fun t => !t.kind.isEof) = proper cs
  rw [List.filter_append, hproper]
  exact List.append_nil _

end Scan

/-- **Scanning composes at line feeds.** The tokens of two texts with a line feed between them are
the tokens of the first one without its end token and then those of the second one, further down by
the number of rows of the first; and so are the errors. -/
theorem scan_append_lineFeed (a b : String) :
    (Scan.ofSource (a ++ "\n" ++ b)).tokens =
      (Scan.ofSource a).tokens.filter (fun t => !t.kind.isEof) ++
        (Scan.ofSource b).tokens.map (Token.down (1 + a.toList.count '\n')) ∧
    (Scan.ofSource (a ++ "\n" ++ b)).errors =
      (Scan.ofSource a).errors ++
        (Scan.ofSource b).errors.map (ScanError.down (1 + a.toList.count '\n')) := by
  have htext : (a ++ "\n" ++ b).toList = a.toList ++ '\n' :: b.toList := by
    simp [String.toList_append]
  unfold Scan.ofSource
  rw [htext, Scan.filter_tokens]
  refine ⟨?_, Scan.errors_append a.toList b.toList⟩
  show Scan.proper _ ++ [Scan.endToken _] =
    Scan.proper _ ++ (Scan.proper _ ++ [Scan.endToken _]).map _
  rw [Scan.proper_append, Scan.endToken_append, List.map_append, List.append_assoc]
  rfl

end Sugod
