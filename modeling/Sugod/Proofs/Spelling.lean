import Sugod.Proofs.Tiling

/-!
# How tokens are spelled

The texts of tokens, apart from any source that they stand in. `Kind.Spelled kind text` lists them:
symbols and keywords by their tables, names, numerals, characters and strings by their form.

Scanning and spelling fit together in both directions.

* What is scanned was spelled: a token that starts some text is the kind that its own characters
  spell, whatever the characters behind it are (`Piece.spelled_of_first`).
* What is spelled is scanned: a spelling in front of the end of its row, where only blanks and a
  comment may stand, is cut off as one token (`Piece.first_of_spelled`).

Every kind that can be written at all has a spelling (`Kind.exists_spelled`).

The second direction needs the end of the row. Behind `KUNG` a blank alone decides nothing, for the
next word may be `DILI`.
-/

set_option autoImplicit false

namespace Sugod

/-! ## The spellings -/

namespace Mark

/-- Punctuation and operators. -/
def symbols : List (List Char × Mark) :=
  [("(".toList, leftParen), (")".toList, rightParen), ("\x7b".toList, leftBrace),
   ("\x7d".toList, rightBrace), (",".toList, comma), (":".toList, colon), ("+".toList, plus),
   ("-".toList, minus), ("*".toList, star), ("/".toList, slash), ("%".toList, percent),
   ("&".toList, ampersand), ("!".toList, bang), ("=".toList, equal), ("==".toList, equalEqual),
   ("<>".toList, notEqual), (">".toList, greater), (">=".toList, greaterEqual), ("<".toList, less),
   ("<=".toList, lessEqual)]

/-- The keywords of two words. -/
def wordPairs : List ((List Char × List Char) × Mark) :=
  [(("KUNG".toList, "DILI".toList), kungDili), (("KUNG".toList, "WALA".toList), kungWala),
   (("ALANG".toList, "SA".toList), alangSa)]

/-- The truth values, which may also be written in quotes. -/
def truths : List (List Char × Mark) :=
  [("OO".toList, oo), ("DILI".toList, dili)]

theorem mem_truths_iff {text : List Char} {m : Mark} :
    (text, m) ∈ truths ↔ (text = "OO".toList ∧ m = oo) ∨ (text = "DILI".toList ∧ m = dili) := by
  simp only [truths, List.mem_cons, Prod.mk.injEq, List.not_mem_nil, or_false]

end Mark

/-- Whether a text is a word: a letter or an underscore, then letters, digits and underscores. -/
def Text.isWord : List Char → Bool
  | [] => false
  | c :: more => Piece.isWordStart c && more.all Piece.isWordChar

theorem Text.isWord_cons {c : Char} {more : List Char} :
    isWord (c :: more) = true ↔
      Piece.isWordStart c = true ∧ ∀ d ∈ more, Piece.isWordChar d = true := by
  rw [isWord, Bool.and_eq_true, List.all_eq_true]

/-- A run of digits. -/
def Text.IsDigits (text : List Char) : Prop :=
  text ≠ [] ∧ ∀ c ∈ text, c.isDigit = true

/-- A text that spells a kind of token. -/
inductive Kind.Spelled : Kind → List Char → Prop
  | symbol {text : List Char} {m : Mark} (h : (text, m) ∈ Mark.symbols) : Spelled (.mark m) text
  | keyword {word : String} {m : Mark} (h : (word, m) ∈ Mark.words) : Spelled (.mark m) word.toList
  | twoWords {first second gap : List Char} {m : Mark} (h : ((first, second), m) ∈ Mark.wordPairs)
      (hne : gap ≠ []) (hgap : ∀ c ∈ gap, Piece.isGap c = true) :
      Spelled (.mark m) (first ++ gap ++ second)
  | identifier {name : List Char} (h : Text.isWord name = true)
      (hfree : Mark.ofWord? (String.ofList name) = none) :
      Spelled (.identifier (String.ofList name)) name
  | int (zeros : Nat) {n : Nat} (h : n < Nat.pow 2 63) :
      Spelled (.int (Int64.ofNat n)) (List.replicate zeros '0' ++ Decimal.numeral n)
  | float {ds fs : List Char} (hds : Text.IsDigits ds) (hfs : Text.IsDigits fs) :
      Spelled (Piece.floatKind ds fs) (ds ++ '.' :: fs)
  | quotedChar {c : Char} (h : c ≠ '\n') : Spelled (.char c) ['\'', c, '\'']
  | bracketedChar {c : Char} (h : c ≠ '\n') : Spelled (.char c) ['[', c, ']']
  | lineFeed : Spelled (.char '\n') ['$']
  | string {text : List Char} (hquote : '"' ∉ text) (hrow : '\n' ∉ text)
      (hfree : ∀ m, (text, m) ∉ Mark.truths) :
      Spelled (.string (String.ofList text)) ('"' :: text ++ ['"'])
  | quotedTruth {text : List Char} {m : Mark} (h : (text, m) ∈ Mark.truths) :
      Spelled (.mark m) ('"' :: text ++ ['"'])

/-- Blanks up to the end of a row, and perhaps a comment. -/
inductive Text.RowEnd : List Char → Prop
  | nil : RowEnd []
  | blank {c : Char} {cs : List Char} (hc : Piece.isGap c = true) (h : RowEnd cs) : RowEnd (c :: cs)
  | comment {text : List Char} (hrow : '\n' ∉ text) : RowEnd ('#' :: text)

/-! ## Numerals with zeros in front -/

namespace Decimal

theorem digit_digitValue {c : Char} (h : c.isDigit = true) :
    digitValue c < 10 ∧ digit (digitValue c) = c := by
  have hrange : 48 ≤ c.toNat ∧ c.toNat ≤ 57 := by
    simpa [Char.isDigit, UInt32.le_iff_toNat_le] using h
  constructor
  · unfold digitValue
    omega
  · unfold digit digitValue
    rw [Nat.add_sub_cancel' hrange.1]
    exact Char.ofNat_toNat c

theorem numeralValue_append_singleton (ds : List Char) (c : Char) :
    numeralValue (ds ++ [c]) = 10 * numeralValue ds + digitValue c := by
  simp [numeralValue]

/-- Zeros in front do not count. -/
theorem numeralValue_zeros (zeros n : Nat) :
    numeralValue (List.replicate zeros '0' ++ numeral n) = n := by
  have hzeros : (List.replicate zeros '0').foldl (fun n c => 10 * n + digitValue c) 0 = 0 := by
    induction zeros with
    | zero => rfl
    | succ zeros ih =>
      rw [List.replicate_succ, List.foldl_cons]
      exact ih
  have hnumeral := numeralValue_numeral n
  unfold numeralValue at hnumeral ⊢
  rw [List.foldl_append, hzeros, hnumeral]

/-- **Every run of digits is a numeral with zeros in front**, that of its value. -/
theorem exists_zeros {ds : List Char} (h : Text.IsDigits ds) :
    ∃ zeros, ds = List.replicate zeros '0' ++ numeral (numeralValue ds) := by
  obtain ⟨hne, hdigits⟩ := h
  induction ds using List.reverseRecOn with
  | nil => exact absurd rfl hne
  | append_singleton front c ih =>
    obtain ⟨hlt, hdigit⟩ := digit_digitValue (hdigits c (by simp))
    have hsingle : numeral (digitValue c) = [c] := by
      rw [numeral, if_pos hlt, hdigit]
    rw [numeralValue_append_singleton]
    by_cases hfront : front = []
    · subst hfront
      refine ⟨0, ?_⟩
      simp [numeralValue, hsingle]
    · obtain ⟨zeros, hzeros⟩ := ih hfront fun d hd => hdigits d (by simp [hd])
      by_cases hvalue : numeralValue front = 0
      · -- All digits in front are zeros, and the numeral of zero is one of them.
        have hzero : numeral 0 = ['0'] := by rw [numeral, if_pos (by decide)]; rfl
        refine ⟨zeros + 1, ?_⟩
        rw [hvalue, hzero] at hzeros
        rw [hvalue, Nat.mul_zero, Nat.zero_add, hsingle, List.replicate_succ', ← hzeros]
      · refine ⟨zeros, ?_⟩
        have hten : 10 ≤ 10 * numeralValue front + digitValue c := by omega
        have hdiv : (10 * numeralValue front + digitValue c) / 10 = numeralValue front := by omega
        have hmod : (10 * numeralValue front + digitValue c) % 10 = digitValue c := by omega
        rw [numeral_of_ten_le hten, hdiv, hmod, hdigit, ← List.append_assoc, ← hzeros]

end Decimal

namespace Piece

variable {p : Char → Bool} {c : Char} {cs text behind word : List Char} {kind : Kind} {m : Mark}
  {n : Nat}

/-! ## Runs of characters -/

theorem takeWhile_of_stop (htext : ∀ c ∈ text, p c = true)
    (hstop : ∀ c ∈ behind.head?, p c = false) : (text ++ behind).takeWhile p = text := by
  rw [List.takeWhile_append_of_pos htext]
  cases behind with
  | nil => simp
  | cons d behind =>
    have hd : p d = false := hstop d rfl
    simp [hd]

theorem dropWhile_of_stop (htext : ∀ c ∈ text, p c = true)
    (hstop : ∀ c ∈ behind.head?, p c = false) : (text ++ behind).dropWhile p = behind := by
  rw [List.dropWhile_append_of_pos htext]
  cases behind with
  | nil => rfl
  | cons d behind =>
    have hd : p d = false := hstop d rfl
    simp [hd]

/-- A run and some characters behind it. -/
theorem take_takeWhile_add (p : Char → Bool) (cs : List Char) (k : Nat) :
    cs.take ((cs.takeWhile p).length + k) = cs.takeWhile p ++ (cs.dropWhile p).take k := by
  induction cs with
  | nil => simp
  | cons c cs ih =>
    by_cases hc : p c = true
    · simp only [List.takeWhile_cons, List.dropWhile_cons, hc, if_true, List.length_cons,
        Nat.succ_add, List.take_succ_cons, ih, List.cons_append]
    · simp [hc]

theorem take_takeWhile (p : Char → Bool) (cs : List Char) :
    cs.take (cs.takeWhile p).length = cs.takeWhile p :=
  (List.prefix_iff_eq_take.mp (List.takeWhile_prefix _)).symm

/-- What a run does not take does not start like it. -/
theorem head?_dropWhile (p : Char → Bool) (cs : List Char) :
    ∀ c ∈ (cs.dropWhile p).head?, p c = false := by
  intro c hc
  have hnot := List.head?_dropWhile_not p cs
  rw [hc] at hnot
  simpa using hnot

theorem isGap_iff {c : Char} : isGap c = true ↔ c = ' ' ∨ c = '\t' := by
  simp [isGap]

/-- The end of a row stops every run of other characters. -/
theorem stop_of_rowEnd (hspace : p ' ' = false) (htab : p '\t' = false) (hhash : p '#' = false)
    (h : Text.RowEnd behind) : ∀ c ∈ behind.head?, p c = false := by
  intro c hc
  cases h with
  | nil => cases hc
  | blank hgap _ =>
    obtain rfl := Option.some.inj hc
    rcases isGap_iff.mp hgap with rfl | rfl
    · exact hspace
    · exact htab
  | comment _ =>
    obtain rfl := Option.some.inj hc
    exact hhash

/-! ## What is scanned was spelled -/

theorem spelled_of_mark? (h : mark? c cs = some (m, n)) :
    Kind.Spelled (.mark m) (c :: cs.take n) := by
  unfold mark? at h
  split at h
  all_goals cases h
  all_goals exact .symbol (by simp [Mark.symbols])

theorem not_mem_upTo (close : Char) (cs : List Char) :
    close ∉ upTo close cs ∧ '\n' ∉ upTo close cs := by
  have hchar : ∀ d ∈ upTo close cs, d ≠ close ∧ d ≠ '\n' := by
    intro d hd
    simpa using List.mem_takeWhile_imp hd
  exact ⟨fun hmem => (hchar _ hmem).1 rfl, fun hmem => (hchar _ hmem).2 rfl⟩

/-- A string in quotes is a truth value or itself. -/
theorem spelled_quoted (hquote : '"' ∉ text) (hrow : '\n' ∉ text) :
    Kind.Spelled (stringKind text) ('"' :: text ++ ['"']) := by
  unfold stringKind
  split
  · rename_i hoo
    exact .quotedTruth (Mark.mem_truths_iff.mpr (.inl ⟨hoo, rfl⟩))
  · split
    · rename_i hdili
      exact .quotedTruth (Mark.mem_truths_iff.mpr (.inr ⟨hdili, rfl⟩))
    · rename_i hoo hdili
      refine .string hquote hrow fun m hm => ?_
      rcases Mark.mem_truths_iff.mp hm with ⟨htext, -⟩ | ⟨htext, -⟩
      · exact hoo htext
      · exact hdili htext

theorem spelled_of_string (h : string cs = (.token kind, n)) :
    Kind.Spelled kind ('"' :: cs.take n) := by
  unfold string at h
  split at h
  · rename_i hcloses
    obtain ⟨rfl, rfl⟩ : stringKind (upTo '"' cs) = kind ∧ (upTo '"' cs).length + 1 = n := by
      simpa using h
    have hclose : (cs.drop (upTo '"' cs).length).take 1 = ['"'] := by
      have hhead : (cs.drop (upTo '"' cs).length).head? = some '"' := of_decide_eq_true hcloses
      rw [List.take_one, hhead]
      rfl
    have htext : cs.take (upTo '"' cs).length = upTo '"' cs := take_takeWhile _ cs
    obtain ⟨hquote, hrow⟩ := not_mem_upTo '"' cs
    rw [List.take_add, htext, hclose]
    exact spelled_quoted hquote hrow
  · cases h

theorem take_of_enclosed? {close d : Char} (h : enclosed? close cs = some d) :
    d ≠ '\n' ∧ cs.take 2 = [d, close] := by
  unfold enclosed? at h
  split at h
  · split at h
    · rename_i hboth
      obtain rfl := Option.some.inj h
      exact ⟨hboth.1, by rw [← hboth.2]; rfl⟩
    · cases h
  · cases h

theorem spelled_of_quotedChar (h : quotedChar cs = (.token kind, n)) :
    Kind.Spelled kind ('\'' :: cs.take n) := by
  unfold quotedChar at h
  split at h
  · rename_i d hd
    cases h
    obtain ⟨hrow, htake⟩ := take_of_enclosed? hd
    rw [htake]
    exact .quotedChar hrow
  · cases h

theorem spelled_of_bracketedChar (h : bracketedChar cs = (.token kind, n)) :
    Kind.Spelled kind ('[' :: cs.take n) := by
  unfold bracketedChar at h
  split at h
  · rename_i d hd
    cases h
    obtain ⟨hrow, htake⟩ := take_of_enclosed? hd
    rw [htake]
    exact .bracketedChar hrow
  · cases h

/-! ### Numbers -/

theorem isDigits_cons_takeWhile (hc : c.isDigit = true) (cs : List Char) :
    Text.IsDigits (c :: cs.takeWhile Char.isDigit) := by
  refine ⟨List.cons_ne_nil _ _, fun d hd => ?_⟩
  rcases List.mem_cons.mp hd with rfl | hd
  · exact hc
  · exact List.mem_takeWhile_imp hd

theorem spelled_of_intFinding (hds : Text.IsDigits text) (h : intFinding text = .token kind) :
    Kind.Spelled kind text := by
  unfold intFinding at h
  split at h
  · rename_i hlt
    cases h
    obtain ⟨zeros, hzeros⟩ := Decimal.exists_zeros hds
    nth_rewrite 2 [hzeros]
    exact .int zeros hlt
  · cases h

/-- A point and the digits behind it, if there are any. -/
theorem exists_of_fraction (h : (fraction cs).isEmpty = false) :
    ∃ more, cs = '.' :: more ∧ fraction cs = more.takeWhile Char.isDigit := by
  unfold fraction at h ⊢
  split at h
  · rename_i more
    exact ⟨more, rfl, rfl⟩
  · cases h

theorem spelled_of_number (hc : c.isDigit = true) (h : number c cs = (.token kind, n)) :
    Kind.Spelled kind (c :: cs.take n) := by
  have hds := isDigits_cons_takeWhile hc cs
  rw [number_eq] at h
  split at h
  · cases h
  · split at h
    · rename_i hempty
      obtain ⟨hkind, rfl⟩ := Prod.mk.inj h
      rw [numberLength, if_pos hempty, take_takeWhile]
      exact spelled_of_intFinding hds hkind
    · rename_i hfraction
      cases h
      have hnonempty : (fraction (cs.dropWhile Char.isDigit)).isEmpty = false :=
        Bool.not_eq_true _ ▸ hfraction
      obtain ⟨more, hmore, hfs⟩ := exists_of_fraction hnonempty
      have hdigits : Text.IsDigits (more.takeWhile Char.isDigit) := by
        refine ⟨fun hnil => ?_, fun d hd => List.mem_takeWhile_imp hd⟩
        rw [hfs, hnil] at hnonempty
        cases hnonempty
      have htext : cs.take (numberLength cs) =
          cs.takeWhile Char.isDigit ++ '.' :: more.takeWhile Char.isDigit := by
        rw [numberLength, if_neg hfraction, hfs, Nat.add_assoc, take_takeWhile_add, hmore,
          Nat.add_comm 1, List.take_succ_cons, take_takeWhile]
      rw [htext, hfs]
      exact .float hds hdigits

/-! ### Words -/

/-- A second word is found behind blanks. -/
theorem take_of_follows? (h : follows? word cs = some n) :
    cs.take n = cs.takeWhile isGap ++ word := by
  simp only [follows?] at h
  split at h
  · rename_i hfollows
    obtain ⟨rest, hrest⟩ := List.isPrefixOf_iff_prefix.mp (Bool.and_eq_true_iff.mp hfollows).1
    obtain rfl := Option.some.inj h
    rw [take_takeWhile_add, ← hrest, List.take_left]
  · cases h

/-- Two words are divided: the first one takes all characters of its kind. -/
theorem takeWhile_isGap_ne_nil (hstop : ∀ c ∈ cs.head?, isWordChar c = false)
    (hword : word.head?.any isWordChar = true) (h : follows? word cs = some n) :
    cs.takeWhile isGap ≠ [] := by
  intro hnil
  simp only [follows?] at h
  split at h
  · rename_i hfollows
    obtain ⟨rest, hrest⟩ := List.isPrefixOf_iff_prefix.mp (Bool.and_eq_true_iff.mp hfollows).1
    have hcs : word ++ rest = cs := by
      have hsplit : cs.takeWhile isGap ++ cs.dropWhile isGap = cs := List.takeWhile_append_dropWhile
      rwa [hnil, List.nil_append, ← hrest] at hsplit
    cases word with
    | nil => cases hword
    | cons w word =>
      have hw : isWordChar w = true := hword
      rw [← hcs] at hstop
      rw [hstop w rfl] at hw
      cases hw
  · cases h

theorem spelled_of_follows? {first : List Char} (hpair : ((first, word), m) ∈ Mark.wordPairs)
    (hstop : ∀ c ∈ cs.head?, isWordChar c = false) (h : follows? word cs = some n) :
    Kind.Spelled (.mark m) (first ++ cs.take n) := by
  have hwords : ∀ p ∈ Mark.wordPairs, p.1.2.head?.any isWordChar = true := by decide
  have hword : word.head?.any isWordChar = true := hwords _ hpair
  rw [take_of_follows? h, ← List.append_assoc]
  exact .twoWords hpair (takeWhile_isGap_ne_nil hstop hword h) fun d hd => List.mem_takeWhile_imp hd

theorem mem_words_of_ofWord? {word : String} (h : Mark.ofWord? word = some m) :
    (word, m) ∈ Mark.words := by
  unfold Mark.ofWord? at h
  obtain ⟨l₁, l₂, hwords, -⟩ := List.lookup_eq_some_iff.mp h
  rw [hwords]
  simp

theorem spelled_of_wordKind {first : List Char} (hfirst : Text.isWord first = true)
    (hstop : ∀ c ∈ cs.head?, isWordChar c = false) (h : wordKind first cs = (kind, n)) :
    Kind.Spelled kind (first ++ cs.take n) := by
  unfold wordKind at h
  split at h
  · rename_i hkung
    subst hkung
    split at h
    · rename_i hdili
      cases h
      exact spelled_of_follows? (by simp [Mark.wordPairs]) hstop hdili
    · split at h
      · rename_i hwala
        cases h
        exact spelled_of_follows? (by simp [Mark.wordPairs]) hstop hwala
      · cases h
        have hmem : ("KUNG", Mark.kung) ∈ Mark.words := by simp [Mark.words]
        exact .keyword hmem
  · split at h
    · rename_i halang
      subst halang
      split at h
      · rename_i hsa
        cases h
        exact spelled_of_follows? (by simp [Mark.wordPairs]) hstop hsa
      · cases h
        rw [List.take_zero, List.append_nil]
        exact .identifier hfirst (by decide)
    · split at h
      · rename_i hmark
        cases h
        have hspelled := Kind.Spelled.keyword (mem_words_of_ofWord? hmark)
        rwa [String.toList_ofList, ← List.append_nil first, ← List.take_zero] at hspelled
      · rename_i hfree
        cases h
        rw [List.take_zero, List.append_nil]
        exact .identifier hfirst hfree

theorem spelled_of_word (hc : isWordStart c = true) (h : Piece.word c cs = (.token kind, n)) :
    Kind.Spelled kind (c :: cs.take n) := by
  have hfirst : Text.isWord (c :: cs.takeWhile isWordChar) = true :=
    Text.isWord_cons.mpr ⟨hc, fun d hd => List.mem_takeWhile_imp hd⟩
  have hstop := head?_dropWhile isWordChar cs
  rw [word_eq] at h
  generalize hkind : wordKind (c :: cs.takeWhile isWordChar) (cs.dropWhile isWordChar) = found at h
  obtain ⟨k, extra⟩ := found
  cases h
  have hspelled := spelled_of_wordKind hfirst hstop hkind
  rw [take_takeWhile_add]
  exact hspelled

/-- **What is scanned was spelled**: a token has the kind that its own characters spell. -/
theorem spelled_of_first (h : first c cs = (.token kind, n)) :
    Kind.Spelled kind (c :: cs.take n) := by
  unfold first at h
  split at h
  · rename_i hmark
    cases h
    exact spelled_of_mark? hmark
  · split at h
    · cases h
    · split at h
      · cases h
      · split at h
        · cases h
        · split at h
          · rename_i hdollar
            cases h
            rw [hdollar, List.take_zero]
            exact .lineFeed
          · split at h
            · rename_i hquote
              rw [hquote]
              exact spelled_of_string h
            · split at h
              · rename_i hquote
                rw [hquote]
                exact spelled_of_quotedChar h
              · split at h
                · rename_i hbracket
                  rw [hbracket]
                  exact spelled_of_bracketedChar h
                · split at h
                  · rename_i hdigit
                    exact spelled_of_number hdigit h
                  · split at h
                    · rename_i hstart
                      exact spelled_of_word hstart h
                    · cases h

/-! ## What is spelled is scanned -/

theorem mark?_append_cons (c : Char) (text : List Char) (d : Char) (cs : List Char) :
    mark? c (text ++ d :: cs) = mark? c (text ++ [d]) := by
  cases text with
  | nil =>
    show mark? c (d :: cs) = mark? c [d]
    unfold mark?
    split <;> simp_all
  | cons x text =>
    show mark? c (x :: (text ++ d :: cs)) = mark? c (x :: (text ++ [d]))
    unfold mark?
    split <;> simp_all

theorem mark?_of_mem_symbols : ∀ s ∈ Mark.symbols, ∀ behind ∈ [[], [' '], ['\t'], ['#']],
    (s.1.head?.bind fun c => mark? c (s.1.tail ++ behind)) = some (s.2, s.1.length - 1) := by
  decide

theorem first_of_symbol (h : (c :: text, m) ∈ Mark.symbols) (hend : Text.RowEnd behind) :
    first c (text ++ behind) = (.token (.mark m), text.length) := by
  have hsymbol := mark?_of_mem_symbols _ h
  have hmark : mark? c (text ++ behind) = some (m, text.length) := by
    cases hend with
    | nil => exact hsymbol [] (by simp)
    | @blank d cs hgap _ =>
      rw [mark?_append_cons]
      rcases isGap_iff.mp hgap with rfl | rfl
      · exact hsymbol [' '] (by simp)
      · exact hsymbol ['\t'] (by simp)
    | comment _ =>
      rw [mark?_append_cons]
      exact hsymbol ['#'] (by simp)
  unfold first
  rw [hmark]

theorem isDigit_of_isWordStart (h : isWordStart c = true) : c.isDigit = false := by
  have hrange : (65 ≤ c.toNat ∧ c.toNat ≤ 90) ∨ (97 ≤ c.toNat ∧ c.toNat ≤ 122) ∨ c.toNat = 95 := by
    have hstart : (c.isUpper || c.isLower || decide (c = '_')) = true := h
    simp only [Bool.or_eq_true, decide_eq_true_eq] at hstart
    rcases hstart with (h | h) | rfl
    · left
      have hupper : 'A'.val ≤ c.val ∧ c.val ≤ 'Z'.val := of_decide_eq_true h
      exact ⟨UInt32.le_iff_toNat_le.mp hupper.1, UInt32.le_iff_toNat_le.mp hupper.2⟩
    · right
      left
      have hlower : (decide ('a'.val ≤ c.val) && decide (c.val ≤ 'z'.val)) = true := h
      simp only [Bool.and_eq_true, decide_eq_true_eq] at hlower
      exact ⟨UInt32.le_iff_toNat_le.mp hlower.1, UInt32.le_iff_toNat_le.mp hlower.2⟩
    · right
      right
      rfl
  refine Bool.eq_false_iff.mpr fun hdigit => ?_
  have hdigit : 48 ≤ c.toNat ∧ c.toNat ≤ 57 := by
    simpa [Char.isDigit, UInt32.le_iff_toNat_le] using hdigit
  omega

/-- The characters that start something other than a number or a word. -/
def specials : List Char :=
  "()\x7b\x7d,:+-*/%&!=<> \t\r\n#$\"'[".toList

theorem not_mem_specials {p : Char → Bool} (hp : specials.any p = false) (hc : p c = true) :
    c ∉ specials :=
  fun hmem => List.any_eq_false.mp hp c hmem hc

/-- All other characters start a number or a word, or are out of place. -/
theorem first_of_not_special (h : c ∉ specials) (cs : List Char) :
    first c cs =
      if c.isDigit then number c cs
      else if isWordStart c then Piece.word c cs
      else (.error (.unexpectedChar c), 0) := by
  have hne : ∀ d ∈ specials, c ≠ d := by
    rintro d hd rfl
    exact h hd
  have hmark : mark? c cs = none := by
    unfold mark?
    split
    all_goals try exact absurd rfl (hne _ (by decide))
    rfl
  have hgap : ¬ (c = ' ' ∨ c = '\t' ∨ c = '\r') := by
    rintro (hc | hc | hc)
    · exact hne ' ' (by decide) hc
    · exact hne '\t' (by decide) hc
    · exact hne '\r' (by decide) hc
  unfold first
  rw [hmark]
  simp only [if_neg hgap, if_neg (hne '\n' (by decide)), if_neg (hne '#' (by decide)),
    if_neg (hne '$' (by decide)), if_neg (hne '"' (by decide)), if_neg (hne '\'' (by decide)),
    if_neg (hne '[' (by decide))]

/-- A letter or an underscore starts a word. -/
theorem first_of_isWordStart (h : isWordStart c = true) (cs : List Char) :
    first c cs = Piece.word c cs := by
  have hc : c ∉ specials := not_mem_specials (by decide) h
  rw [first_of_not_special hc, isDigit_of_isWordStart h, h]
  rfl

/-- A digit starts a number. -/
theorem first_of_isDigit (h : c.isDigit = true) (cs : List Char) : first c cs = number c cs := by
  have hc : c ∉ specials := not_mem_specials (by decide) h
  rw [first_of_not_special hc, if_pos h]

/-! ### Words -/

/-- No word stands at the end of a row. -/
theorem follows?_of_rowEnd {w : Char} (hw : w ≠ '#') (word : List Char)
    (hend : Text.RowEnd behind) : follows? (w :: word) behind = none := by
  have hstarts : (w :: word).isPrefixOf (behind.dropWhile isGap) = false := by
    induction hend with
    | nil => rfl
    | blank hc _ ih => rwa [List.dropWhile_cons, if_pos hc]
    | comment _ => simp [isGap, List.isPrefixOf, hw]
  simp [follows?, hstarts]

theorem first_of_word {more : List Char} (h : Text.isWord (c :: more) = true)
    (hstop : ∀ d ∈ behind.head?, isWordChar d = false) :
    first c (more ++ behind) =
      (.token (wordKind (c :: more) behind).1, more.length + (wordKind (c :: more) behind).2) := by
  obtain ⟨hc, hmore⟩ := Text.isWord_cons.mp h
  rw [first_of_isWordStart hc, word_eq, takeWhile_of_stop hmore hstop,
    dropWhile_of_stop hmore hstop]

theorem first_of_wordKind (h : Text.isWord (c :: text) = true) (hend : Text.RowEnd behind)
    (hkind : wordKind (c :: text) behind = (kind, 0)) :
    first c (text ++ behind) = (.token kind, text.length) := by
  rw [first_of_word h (stop_of_rowEnd rfl rfl rfl hend), hkind]
  rfl

theorem isWord_of_mem_words : ∀ p ∈ Mark.words, Text.isWord p.1.toList = true := by decide

theorem isWord_of_mem_wordPairs : ∀ p ∈ Mark.wordPairs, Text.isWord p.1.1 = true := by decide

theorem wordKind_of_mem_words {word : String} (h : (word, m) ∈ Mark.words)
    (hend : Text.RowEnd behind) : wordKind word.toList behind = (.mark m, 0) := by
  have hwords : ∀ p ∈ Mark.words, Mark.ofWord? p.1 = some p.2 := by decide
  have hword : Mark.ofWord? word = some m := hwords _ h
  unfold wordKind
  split
  · rename_i hkung
    obtain rfl := String.toList_inj.mp hkung
    obtain rfl : Mark.kung = m := Option.some.inj hword
    have hdili : follows? "DILI".toList behind = none := follows?_of_rowEnd (by decide) _ hend
    have hwala : follows? "WALA".toList behind = none := follows?_of_rowEnd (by decide) _ hend
    rw [hdili, hwala]
  · split
    · rename_i halang
      obtain rfl := String.toList_inj.mp halang
      cases hword
    · rw [String.ofList_toList, hword]

theorem wordKind_of_ofWord?_eq_none {name : List Char}
    (h : Mark.ofWord? (String.ofList name) = none) (hend : Text.RowEnd behind) :
    wordKind name behind = (.identifier (String.ofList name), 0) := by
  unfold wordKind
  split
  · rename_i hkung
    subst hkung
    cases h
  · split
    · have hsa : follows? "SA".toList behind = none := follows?_of_rowEnd (by decide) _ hend
      rw [hsa]
    · rw [h]

theorem dropWhile_isGap {gap : List Char} {w : Char} (hgap : ∀ d ∈ gap, isGap d = true)
    (hw : isGap w = false) (rest : List Char) :
    (gap ++ w :: rest).takeWhile isGap = gap ∧ (gap ++ w :: rest).dropWhile isGap = w :: rest := by
  have hstop : ∀ d ∈ (w :: rest).head?, isGap d = false := by
    intro d hd
    obtain rfl := Option.some.inj hd
    exact hw
  exact ⟨takeWhile_of_stop hgap hstop, dropWhile_of_stop hgap hstop⟩

theorem follows?_of_gap {gap : List Char} {w : Char} (hgap : ∀ d ∈ gap, isGap d = true)
    (hw : isGap w = false) (word : List Char) (hstop : ∀ d ∈ behind.head?, isWordChar d = false) :
    follows? (w :: word) (gap ++ (w :: word ++ behind)) =
      some (gap.length + (w :: word).length) := by
  obtain ⟨htake, hdrop⟩ := dropWhile_isGap hgap hw (word ++ behind)
  have hstarts : (w :: word).isPrefixOf (w :: word ++ behind) = true :=
    List.isPrefixOf_iff_prefix.mpr (List.prefix_append _ _)
  have hbehind : (behind.head?.any isWordChar) = false := by
    cases hhead : behind.head? with
    | none => rfl
    | some d => exact hstop d hhead
  simp only [follows?, List.cons_append, htake, hdrop]
  rw [← List.cons_append, hstarts, List.drop_left, hbehind]
  rfl

/-- A keyword of two words, with what stands behind its first word. -/
theorem wordKind_of_mem_wordPairs {first second gap : List Char}
    (h : ((first, second), m) ∈ Mark.wordPairs) (hgap : ∀ d ∈ gap, isGap d = true)
    (hstop : ∀ d ∈ behind.head?, isWordChar d = false) :
    wordKind first (gap ++ (second ++ behind)) = (.mark m, gap.length + second.length) := by
  simp only [Mark.wordPairs, List.mem_cons, Prod.mk.injEq, List.not_mem_nil, or_false] at h
  rcases h with ⟨⟨rfl, rfl⟩, rfl⟩ | ⟨⟨rfl, rfl⟩, rfl⟩ | ⟨⟨rfl, rfl⟩, rfl⟩
  · have hdili : follows? "DILI".toList (gap ++ ("DILI".toList ++ behind)) = some _ :=
      follows?_of_gap hgap rfl "ILI".toList hstop
    unfold wordKind
    rw [if_pos rfl, hdili]
    rfl
  · have hdili : follows? "DILI".toList (gap ++ ("WALA".toList ++ behind)) = none := by
      have hdrop : (gap ++ ("WALA".toList ++ behind)).dropWhile isGap = "WALA".toList ++ behind :=
        (dropWhile_isGap hgap rfl ("ALA".toList ++ behind)).2
      simp only [follows?, hdrop]
      rfl
    have hwala : follows? "WALA".toList (gap ++ ("WALA".toList ++ behind)) = some _ :=
      follows?_of_gap hgap rfl "ALA".toList hstop
    unfold wordKind
    rw [if_pos rfl, hdili, hwala]
    rfl
  · have hsa : follows? "SA".toList (gap ++ ("SA".toList ++ behind)) = some _ :=
      follows?_of_gap hgap rfl "A".toList hstop
    unfold wordKind
    rw [if_neg (by decide), if_pos rfl, hsa]
    rfl

theorem first_of_twoWords {first second gap : List Char} (h : ((first, second), m) ∈ Mark.wordPairs)
    (hne : gap ≠ []) (hgap : ∀ d ∈ gap, isGap d = true)
    (htext : first ++ gap ++ second = c :: text) (hend : Text.RowEnd behind) :
    Piece.first c (text ++ behind) = (.token (.mark m), text.length) := by
  have hword : Text.isWord first = true := isWord_of_mem_wordPairs _ h
  obtain ⟨d, gap, rfl⟩ := List.exists_cons_of_ne_nil hne
  cases first with
  | nil => cases hword
  | cons e more =>
    obtain ⟨rfl, rfl⟩ : e = c ∧ more ++ (d :: gap ++ second) = text := by simpa using htext
    -- The blanks end the first word, and the end of the row ends the second one.
    have hstop : ∀ x ∈ (d :: gap ++ (second ++ behind)).head?, isWordChar x = false := by
      intro x hx
      obtain rfl := Option.some.inj hx
      rcases isGap_iff.mp (hgap d List.mem_cons_self) with rfl | rfl <;> rfl
    have hkind := wordKind_of_mem_wordPairs h hgap (stop_of_rowEnd rfl rfl rfl hend)
    rw [List.append_assoc, List.append_assoc, first_of_word hword hstop, hkind, List.length_append,
      List.length_append]

/-! ### Numbers -/

theorem fraction_of_head (h : ∀ d ∈ behind.head?, d ≠ '.') : fraction behind = [] := by
  unfold fraction
  split
  · exact absurd rfl (h '.' rfl)
  · rfl

/-- Behind its text a number takes nothing if no word goes on there. -/
theorem number_of_stop (hlength : numberLength (text ++ behind) = text.length)
    (hstop : ∀ d ∈ behind.head?, isWordChar d = false) :
    ((text ++ behind).drop (numberLength (text ++ behind))).takeWhile isWordChar = [] := by
  have hnone := takeWhile_of_stop (fun d hd => absurd hd List.not_mem_nil) hstop
  rw [hlength, List.drop_left]
  exact hnone

theorem first_of_digits (h : Text.IsDigits (c :: text))
    (hstop : ∀ d ∈ behind.head?, isWordChar d = false) (hpoint : ∀ d ∈ behind.head?, d ≠ '.') :
    first c (text ++ behind) = (intFinding (c :: text), text.length) := by
  obtain ⟨-, hdigits⟩ := h
  obtain ⟨hc, htext⟩ := List.forall_mem_cons.mp hdigits
  have hend : ∀ d ∈ behind.head?, d.isDigit = false := by
    intro d hd
    have hword := hstop d hd
    simp only [isWordChar, Char.isAlphanum, Bool.or_eq_false_iff] at hword
    exact hword.1.2
  have hfraction : (fraction ((text ++ behind).dropWhile Char.isDigit)).isEmpty = true := by
    rw [dropWhile_of_stop htext hend, fraction_of_head hpoint]
    rfl
  have hlength : numberLength (text ++ behind) = text.length := by
    rw [numberLength, if_pos hfraction, takeWhile_of_stop htext hend]
  rw [first_of_isDigit hc, number_eq, number_of_stop hlength hstop, hlength,
    takeWhile_of_stop htext hend, if_neg (by decide), if_pos hfraction]

theorem first_of_int {zeros : Nat} (hn : n < Nat.pow 2 63)
    (htext : List.replicate zeros '0' ++ Decimal.numeral n = c :: text)
    (hend : Text.RowEnd behind) :
    first c (text ++ behind) = (.token (.int (Int64.ofNat n)), text.length) := by
  have hdigits : Text.IsDigits (c :: text) := by
    rw [← htext]
    refine ⟨by simp [Decimal.numeral_ne_nil], fun d hd => ?_⟩
    rcases List.mem_append.mp hd with hd | hd
    · obtain rfl := List.eq_of_mem_replicate hd
      rfl
    · exact Decimal.isDigit_of_mem_numeral hd
  have hvalue : Decimal.numeralValue (c :: text) = n := by
    rw [← htext, Decimal.numeralValue_zeros]
  have hpoint : ∀ d ∈ behind.head?, d ≠ '.' := by
    intro d hd
    simpa using stop_of_rowEnd (p := (· == '.')) rfl rfl rfl hend d hd
  rw [first_of_digits hdigits (stop_of_rowEnd rfl rfl rfl hend) hpoint, intFinding, hvalue,
    if_pos hn]

theorem first_of_float {ds fs : List Char} (hds : Text.IsDigits (c :: ds)) (hfs : Text.IsDigits fs)
    (hend : Text.RowEnd behind) :
    first c (ds ++ '.' :: fs ++ behind) =
      (.token (floatKind (c :: ds) fs), (ds ++ '.' :: fs).length) := by
  obtain ⟨hc, htext⟩ := List.forall_mem_cons.mp hds.2
  have hpoint : ∀ d ∈ ('.' :: (fs ++ behind)).head?, d.isDigit = false := by
    intro d hd
    obtain rfl := Option.some.inj hd
    rfl
  have htake : (ds ++ '.' :: fs ++ behind).takeWhile Char.isDigit = ds := by
    rw [List.append_assoc]
    exact takeWhile_of_stop htext hpoint
  have hfraction : fraction ((ds ++ '.' :: fs ++ behind).dropWhile Char.isDigit) = fs := by
    rw [List.append_assoc]
    show fraction ((ds ++ '.' :: (fs ++ behind)).dropWhile Char.isDigit) = fs
    rw [dropWhile_of_stop htext hpoint]
    exact takeWhile_of_stop hfs.2 (stop_of_rowEnd rfl rfl rfl hend)
  have hnonempty : ¬fs.isEmpty = true := by
    rw [List.isEmpty_iff]
    exact hfs.1
  have hlength : numberLength (ds ++ '.' :: fs ++ behind) = (ds ++ '.' :: fs).length := by
    rw [numberLength, hfraction, if_neg hnonempty, htake, List.length_append, List.length_cons]
    omega
  rw [first_of_isDigit hc, number_eq, number_of_stop hlength (stop_of_rowEnd rfl rfl rfl hend),
    hlength, htake, hfraction, if_neg (by decide), if_neg hnonempty]

/-! ### Strings -/

theorem first_of_quoted (hquote : '"' ∉ text) (hrow : '\n' ∉ text) (behind : List Char) :
    first '"' (text ++ ['"'] ++ behind) = (.token (stringKind text), (text ++ ['"']).length) := by
  have hupTo : upTo '"' (text ++ ['"'] ++ behind) = text := by
    rw [List.append_assoc]
    refine takeWhile_of_stop (fun d hd => ?_) fun d hd => ?_
    · have hne : d ≠ '"' ∧ d ≠ '\n' := ⟨fun h => hquote (h ▸ hd), fun h => hrow (h ▸ hd)⟩
      simp [hne]
    · obtain rfl := Option.some.inj hd
      rfl
  have hcloses : closes '"' (text ++ ['"'] ++ behind) = true := by
    unfold closes
    rw [hupTo, List.append_assoc, List.drop_left]
    rfl
  show string (text ++ ['"'] ++ behind) = _
  rw [string, if_pos hcloses, hupTo, List.length_append]
  rfl

theorem stringKind_of_truths (h : (text, m) ∈ Mark.truths) : stringKind text = .mark m := by
  rcases Mark.mem_truths_iff.mp h with ⟨rfl, rfl⟩ | ⟨rfl, rfl⟩ <;> rfl

theorem stringKind_of_not_mem (h : ∀ m, (text, m) ∉ Mark.truths) :
    stringKind text = .string (String.ofList text) := by
  have hoo : text ≠ "OO".toList := fun htext => h .oo (Mark.mem_truths_iff.mpr (.inl ⟨htext, rfl⟩))
  have hdili : text ≠ "DILI".toList := fun htext =>
    h .dili (Mark.mem_truths_iff.mpr (.inr ⟨htext, rfl⟩))
  rw [stringKind, if_neg hoo, if_neg hdili]

/-- **What is spelled is scanned**: in front of the end of its row a spelling is one token. -/
theorem first_of_spelled (h : kind.Spelled (c :: text)) (hend : Text.RowEnd behind) :
    first c (text ++ behind) = (.token kind, text.length) := by
  generalize hall : c :: text = all at h
  cases h with
  | symbol h =>
    subst hall
    exact first_of_symbol h hend
  | keyword h =>
    have hword := isWord_of_mem_words _ h
    have hkind := wordKind_of_mem_words h hend
    rw [← hall] at hword hkind
    exact first_of_wordKind hword hend hkind
  | twoWords h hne hgap => exact first_of_twoWords h hne hgap hall.symm hend
  | identifier h hfree =>
    have hkind := wordKind_of_ofWord?_eq_none hfree hend
    subst hall
    exact first_of_wordKind h hend hkind
  | int zeros h => exact first_of_int h hall.symm hend
  | @float ds fs hds hfs =>
    obtain ⟨d, ds, rfl⟩ := List.exists_cons_of_ne_nil hds.1
    obtain ⟨rfl, rfl⟩ : c = d ∧ text = ds ++ '.' :: fs := by simpa using hall
    exact first_of_float hds hfs hend
  | @quotedChar d h =>
    obtain ⟨rfl, rfl⟩ := List.cons.inj hall
    show quotedChar (d :: '\'' :: behind) = _
    simp [quotedChar, enclosed?, h]
  | @bracketedChar d h =>
    obtain ⟨rfl, rfl⟩ := List.cons.inj hall
    show bracketedChar (d :: ']' :: behind) = _
    simp [bracketedChar, enclosed?, h]
  | lineFeed =>
    obtain ⟨rfl, rfl⟩ := List.cons.inj hall
    rfl
  | string hquote hrow hfree =>
    obtain ⟨rfl, rfl⟩ := List.cons.inj hall
    rw [← stringKind_of_not_mem hfree]
    exact first_of_quoted hquote hrow behind
  | quotedTruth h =>
    obtain ⟨rfl, rfl⟩ := List.cons.inj hall
    have hplain : ∀ p ∈ Mark.truths, '"' ∉ p.1 ∧ '\n' ∉ p.1 := by decide
    obtain ⟨hquote, hrow⟩ := hplain _ h
    rw [← stringKind_of_truths h]
    exact first_of_quoted hquote hrow behind

end Piece

/-! ## What can be spelled -/

namespace Kind

/-- Every mark is in one of the tables. -/
theorem mark_tabulated (m : Mark) :
    (∃ p ∈ Mark.symbols, p.2 = m) ∨ (∃ p ∈ Mark.words, p.2 = m) ∨
      ∃ p ∈ Mark.wordPairs, p.2 = m := by
  cases m with
  | ty t => cases t <;> decide
  | _ => decide

/-- The kinds of tokens that can be written down, apart from fractions: marks, names that are not
keywords, whole numbers that are not negative, characters, and strings that hold no quote and no
line feed and are not a truth value. -/
def Writable : Kind → Prop
  | .mark _ => True
  | .identifier name => Text.isWord name.toList = true ∧ Mark.ofWord? name = none
  | .string text => '"' ∉ text.toList ∧ '\n' ∉ text.toList ∧ text ≠ "OO" ∧ text ≠ "DILI"
  | .int value => 0 ≤ value.toInt
  | .char _ => True
  | .float _ => False
  | .eof => False

theorem exists_spelled_mark (m : Mark) : ∃ text, (mark m).Spelled text := by
  rcases mark_tabulated m with ⟨p, hp, rfl⟩ | ⟨p, hp, rfl⟩ | ⟨p, hp, rfl⟩
  · exact ⟨p.1, .symbol hp⟩
  · exact ⟨p.1.toList, .keyword hp⟩
  · exact ⟨p.1.1 ++ [' '] ++ p.1.2, .twoWords hp (by simp) (by simp [Piece.isGap])⟩

theorem exists_spelled_int {value : Int64} (h : 0 ≤ value.toInt) :
    ∃ text, (int value).Spelled text := by
  have hpow : Nat.pow 2 63 = 9223372036854775808 := rfl
  have hlt : value.toInt.toNat < Nat.pow 2 63 := by
    have hupper := value.toInt_lt
    omega
  have hvalue : Int64.ofNat value.toInt.toNat = value := by
    rw [← Int64.ofInt_eq_ofNat, Int.toNat_of_nonneg h, Int64.ofInt_toInt]
  have hspelled := Spelled.int 0 hlt
  rw [hvalue] at hspelled
  exact ⟨_, hspelled⟩

theorem exists_spelled_char (c : Char) : ∃ text, (char c).Spelled text := by
  by_cases hc : c = '\n'
  · subst hc
    exact ⟨_, .lineFeed⟩
  · exact ⟨_, .quotedChar hc⟩

/-- **Every kind of token that can be written has a spelling.** -/
theorem exists_spelled {kind : Kind} (h : kind.Writable) : ∃ text, kind.Spelled text := by
  cases kind with
  | mark m => exact exists_spelled_mark m
  | identifier name =>
    obtain ⟨hword, hfree⟩ := h
    have hspelled := Spelled.identifier hword (by rwa [String.ofList_toList])
    rw [String.ofList_toList] at hspelled
    exact ⟨_, hspelled⟩
  | string text =>
    obtain ⟨hquote, hrow, hoo, hdili⟩ := h
    have hfree : ∀ m, (text.toList, m) ∉ Mark.truths := by
      intro m hm
      rcases Mark.mem_truths_iff.mp hm with ⟨htext, -⟩ | ⟨htext, -⟩
      · exact hoo (String.toList_inj.mp htext)
      · exact hdili (String.toList_inj.mp htext)
    have hspelled := Spelled.string hquote hrow hfree
    rw [String.ofList_toList] at hspelled
    exact ⟨_, hspelled⟩
  | int value => exact exists_spelled_int h
  | char c => exact exists_spelled_char c
  | float value => exact absurd h id
  | eof => exact absurd h id

end Kind

end Sugod
