import Sugod.Value.Entry
import Sugod.Proofs.Spelling

/-!
# Displayed values can be typed in again

A field of an input line is read in a fixed order: as a whole number, as a number with a fraction or
an exponent, as a character, as a truth value, and else as text. So a value that is displayed and
typed in again comes back only if no earlier reading takes its text (`Value.Enterable`). All whole
numbers and both truth values come back, and so do most characters and texts.

The main statement is `typed_values_read`: the texts of such values with commas between them and
blanks around them are read as these values. It is put together from two facts about one field. The
blanks around it are removed (`Text.trim_of_blanks`), and what is left is read as the value
(`Entry.fieldValue_text`).
-/

set_option autoImplicit false

namespace Sugod

/-! ## Blanks at the ends of a text -/

namespace Text

/-- A text with no blank at its two ends. -/
structure Trimmed (text : List Char) : Prop where
  front : ∀ c ∈ text.head?, isBlank c = false
  back : ∀ c ∈ text.getLast?, isBlank c = false

theorem trimmed_iff {text : List Char} : Trimmed text ↔
    text.head?.all (fun c => !isBlank c) = true ∧
      text.getLast?.all (fun c => !isBlank c) = true := by
  simp only [Option.all_eq_true, Bool.not_eq_true']
  exact ⟨fun h => ⟨h.front, h.back⟩, fun h => ⟨h.1, h.2⟩⟩

instance (text : List Char) : Decidable (Trimmed text) :=
  decidable_of_iff _ trimmed_iff.symm

theorem trimmed_of_forall {text : List Char} (h : ∀ c ∈ text, isBlank c = false) :
    Trimmed text where
  front c hc := h c (List.mem_of_mem_head? hc)
  back c hc := h c (List.mem_of_getLast? hc)

theorem dropWhile_of_front {p : Char → Bool} {text : List Char}
    (h : ∀ c ∈ text.head?, p c = false) : text.dropWhile p = text :=
  Piece.dropWhile_of_stop (List.forall_mem_nil _) h

/-- What stands at the end of a text and satisfies `p` is removed. -/
theorem dropEnd_append {p : Char → Bool} {text after : List Char} (hafter : ∀ c ∈ after, p c = true)
    (hback : ∀ c ∈ text.getLast?, p c = false) : dropEnd p (text ++ after) = text := by
  have hreverse : ∀ c ∈ after.reverse, p c = true := fun c hc => hafter c (List.mem_reverse.mp hc)
  have hstop : ∀ c ∈ text.reverse.head?, p c = false := by
    rw [List.head?_reverse]
    exact hback
  rw [dropEnd, List.reverse_append, Piece.dropWhile_of_stop hreverse hstop, List.reverse_reverse]

/-- **Trimming removes the blanks around a text** and nothing else. -/
theorem trim_of_blanks {before text after : List Char} (hbefore : ∀ c ∈ before, isBlank c = true)
    (hafter : ∀ c ∈ after, isBlank c = true) (h : Trimmed text) :
    trim (before ++ (text ++ after)) = text := by
  rw [trim, List.dropWhile_append_of_pos hbefore]
  cases text with
  | nil =>
    rw [List.nil_append, List.dropWhile_eq_nil_iff.mpr hafter]
    rfl
  | cons c text =>
    have hfront : (c :: text ++ after).dropWhile isBlank = c :: text ++ after :=
      dropWhile_of_front h.front
    rw [hfront, dropEnd_append hafter h.back]

end Text

/-! ## Numbers in a field -/

namespace Entry

theorem sign_of_isDigit {c : Char} (h : c.isDigit = true) (cs : List Char) :
    sign (c :: cs) = (false, c :: cs) := by
  unfold sign
  split
  · rename_i heq
    obtain ⟨rfl, -⟩ := List.cons.inj heq
    cases h
  · rename_i heq
    obtain ⟨rfl, -⟩ := List.cons.inj heq
    cases h
  · rfl

theorem sign_of_isDigits {ds : List Char} (h : Text.IsDigits ds) : sign ds = (false, ds) := by
  obtain ⟨c, cs, rfl⟩ := List.exists_cons_of_ne_nil h.1
  exact sign_of_isDigit (h.2 c List.mem_cons_self) cs

/-- Behind its sign a numeral goes on as it was. -/
theorem mem_of_mem_sign {c : Char} {cs : List Char} (h : c ∈ (sign cs).2) : c ∈ cs := by
  unfold sign at h
  split at h
  · exact List.mem_cons_of_mem _ h
  · exact List.mem_cons_of_mem _ h
  · exact h

theorem digits?_eq_some_iff {cs : List Char} {n : Nat} :
    digits? cs = some n ↔ Text.IsDigits cs ∧ Decimal.numeralValue cs = n := by
  unfold digits? Text.IsDigits
  cases cs with
  | nil => simp
  | cons c cs => simp

theorem isDigits_numeral (n : Nat) : Text.IsDigits (Decimal.numeral n) :=
  ⟨Decimal.numeral_ne_nil n, fun _ hc => Decimal.isDigit_of_mem_numeral hc⟩

theorem digits?_numeral (n : Nat) : digits? (Decimal.numeral n) = some n :=
  digits?_eq_some_iff.mpr ⟨isDigits_numeral n, Decimal.numeralValue_numeral n⟩

theorem sign_signedNumeral (i : Int) :
    sign (Decimal.signedNumeral i) = (decide (i < 0), Decimal.numeral i.natAbs) := by
  unfold Decimal.signedNumeral
  by_cases hi : i < 0
  · rw [if_pos hi, decide_eq_true hi]
    rfl
  · rw [if_neg hi, sign_of_isDigits (isDigits_numeral _), decide_eq_false hi]

/-- **Every whole number of 64 bits is read from its own text**, the smallest one included: the sign
is read together with the digits. -/
theorem int?_signedNumeral (n : Int64) : int? (Decimal.signedNumeral n.toInt) = some n := by
  have hvalue : (if decide (n.toInt < 0) = true then -(n.toInt.natAbs : Int) else n.toInt.natAbs) =
      n.toInt := by
    by_cases hn : n.toInt < 0
    · rw [if_pos (decide_eq_true hn)]
      omega
    · rw [if_neg (by simpa using hn)]
      omega
  have hrange : Int64.minValue.toInt ≤ n.toInt ∧ n.toInt ≤ Int64.maxValue.toInt := by
    have hlow := n.le_toInt
    have hhigh := n.toInt_lt
    constructor
    · rw [Int64.toInt_minValue]
      exact hlow
    · rw [Int64.toInt_maxValue]
      omega
  unfold int?
  rw [sign_signedNumeral, digits?_numeral]
  simp only [hvalue, if_pos hrange, Int64.ofInt_toInt]

/-- A sign and digits are read as a number with a fraction, if they are not read before. -/
theorem isSome_float?_of_digits {cs : List Char} (h : Text.IsDigits (sign cs).2) :
    (float? cs).isSome = true := by
  have htake : (sign cs).2.takeWhile Char.isDigit = (sign cs).2 :=
    List.takeWhile_eq_self_iff.mpr h.2
  have hdrop : (sign cs).2.dropWhile Char.isDigit = [] := List.dropWhile_eq_nil_iff.mpr h.2
  have hne : (sign cs).2.isEmpty = false := by simpa using h.1
  simp [float?, htake, hdrop, hne, fraction, exponent?]

/-- What is no number with a fraction is no whole number. -/
theorem int?_of_float? {cs : List Char} (h : float? cs = none) : int? cs = none := by
  unfold int?
  cases hdigits : digits? (sign cs).2 with
  | none => rfl
  | some n =>
    have hsome := isSome_float?_of_digits (digits?_eq_some_iff.mp hdigits).1
    rw [h] at hsome
    cases hsome

/-- Without a digit there is no number, so that words for infinity are text. -/
theorem float?_of_no_digit {cs : List Char} (h : ∀ c ∈ cs, c.isDigit = false) :
    float? cs = none := by
  have hbody : ∀ c ∈ (sign cs).2, c.isDigit = false := fun c hc => h c (mem_of_mem_sign hc)
  have hwhole : (sign cs).2.takeWhile Char.isDigit = [] := by
    refine List.takeWhile_eq_nil_iff.mpr fun hlength => ?_
    simp [hbody _ (List.getElem_mem hlength)]
  have hfraction : (fraction ((sign cs).2.dropWhile Char.isDigit)).1 = [] := by
    unfold fraction
    split
    · rename_i ds hds
      refine List.takeWhile_eq_nil_iff.mpr fun hlength => ?_
      have hmem : ds[0] ∈ (sign cs).2 := by
        refine (List.dropWhile_sublist Char.isDigit).mem ?_
        rw [hds]
        exact List.mem_cons_of_mem _ (List.getElem_mem hlength)
      simp [hbody _ hmem]
    · rfl
  simp [float?, hwhole, hfraction]

/-- A line without commas and blanks is a single field. -/
theorem values_of_plain {cs : List Char} (h : ∀ c ∈ cs, c ≠ ',' ∧ Text.isBlank c = false) :
    values (String.ofList cs) = [fieldValue cs] := by
  have hcomma : ',' ∉ cs := fun hmem => (h _ hmem).1 rfl
  have htrim : Text.trim cs = cs := by
    have htrimmed := Text.trimmed_of_forall fun c hc => (h c hc).2
    simpa using Text.trim_of_blanks (List.forall_mem_nil _) (List.forall_mem_nil _) htrimmed
  rw [values, String.toList_ofList, Text.split_of_not_mem hcomma, List.map_singleton, htrim]

theorem fieldValue_of_float? {cs : List Char} (h : float? cs = none) :
    fieldValue cs = textValue cs := by
  unfold fieldValue
  rw [int?_of_float? h, h]

end Entry

/-! ## One value -/

/-- The values whose texts are read as themselves: whole numbers and truth values, characters that
are no digit, no comma and no blank, and texts that hold no comma, have no blank at their ends and
do not look like another value. Numbers are not taken from a text without digits. -/
def Value.Enterable : Value → Prop
  | .int _ => True
  | .bool _ => True
  | .char c => c.isDigit = false ∧ c ≠ ',' ∧ Text.isBlank c = false
  | .str s =>
    ',' ∉ s.toList ∧ Text.Trimmed s.toList ∧ s.length ≠ 1 ∧ s ≠ "OO" ∧ s ≠ "DILI" ∧
      ((∀ c ∈ s.toList, c.isDigit = false) ∨ Entry.float? s.toList = none)
  | _ => False

namespace Value

theorem enterable_str_iff {s : String} : Enterable (.str s) ↔
    ',' ∉ s.toList ∧ Text.Trimmed s.toList ∧ s.length ≠ 1 ∧ s ≠ "OO" ∧ s ≠ "DILI" ∧
      (s.toList.all (fun c => !c.isDigit) = true ∨ (Entry.float? s.toList).isNone = true) := by
  simp only [Enterable, List.all_eq_true, Bool.not_eq_true', Option.isNone_iff_eq_none]

instance : DecidablePred Enterable
  | .int _ => inferInstanceAs (Decidable True)
  | .bool _ => inferInstanceAs (Decidable True)
  | .char _ => inferInstanceAs (Decidable (_ ∧ _))
  | .str _ => decidable_of_iff _ enterable_str_iff.symm
  | .float _ => inferInstanceAs (Decidable False)
  | .fn _ => inferInstanceAs (Decidable False)
  | .builtin _ => inferInstanceAs (Decidable False)
  | .nil => inferInstanceAs (Decidable False)

/-- The characters of a numeral: none of them is a comma or a blank. -/
theorem mem_signedNumeral {i : Int} {c : Char} (h : c ∈ Decimal.signedNumeral i) :
    c = '-' ∨ c.isDigit = true := by
  unfold Decimal.signedNumeral at h
  split at h
  · rcases List.mem_cons.mp h with rfl | h
    · exact .inl rfl
    · exact .inr (Decimal.isDigit_of_mem_numeral h)
  · exact .inr (Decimal.isDigit_of_mem_numeral h)

theorem isBlank_of_isDigit {c : Char} (h : c.isDigit = true) : Text.isBlank c = false := by
  have hrange : 48 ≤ c.toNat ∧ c.toNat ≤ 57 := by
    simpa [Char.isDigit, UInt32.le_iff_toNat_le] using h
  simp [Text.isBlank, Text.blankRanges]
  omega

theorem plain_of_mem_signedNumeral {i : Int} {c : Char} (h : c ∈ Decimal.signedNumeral i) :
    c ≠ ',' ∧ Text.isBlank c = false := by
  rcases mem_signedNumeral h with rfl | hdigit
  · decide
  · refine ⟨?_, isBlank_of_isDigit hdigit⟩
    rintro rfl
    cases hdigit

variable {v : Value}

/-- The text of such a value is a whole field. -/
theorem not_mem_text (h : v.Enterable) : ',' ∉ v.text.toList := by
  cases v with
  | int n =>
    rw [text, String.toList_ofList]
    exact fun hmem => (plain_of_mem_signedNumeral hmem).1 rfl
  | bool b => cases b <;> decide
  | char c => simpa [text] using h.2.1.symm
  | str s => exact h.1
  | float _ => exact h.elim
  | fn _ => exact h.elim
  | builtin _ => exact h.elim
  | nil => exact h.elim

theorem trimmed_text (h : v.Enterable) : Text.Trimmed v.text.toList := by
  cases v with
  | int n =>
    rw [text, String.toList_ofList]
    exact Text.trimmed_of_forall fun c hc => (plain_of_mem_signedNumeral hc).2
  | bool b => cases b <;> decide
  | char c => exact Text.trimmed_of_forall (by simpa [text] using h.2.2)
  | str s => exact h.2.1
  | float _ => exact h.elim
  | fn _ => exact h.elim
  | builtin _ => exact h.elim
  | nil => exact h.elim

end Value

/-- **The text of a value is read as the value.** -/
theorem Entry.fieldValue_text {v : Value} (h : v.Enterable) : fieldValue v.text.toList = v := by
  cases v with
  | int n => rw [Value.text, String.toList_ofList, fieldValue, int?_signedNumeral]
  | bool b => cases b <;> rfl
  | char c =>
    have htext : (Value.char c).text.toList = [c] := by simp [Value.text]
    have hnone : float? [c] = none := float?_of_no_digit (by simpa using h.1)
    rw [htext, fieldValue_of_float? hnone]
    rfl
  | str s =>
    obtain ⟨-, -, hlength, hoo, hdili, hnumber⟩ := h
    have hnone : float? s.toList = none := hnumber.elim float?_of_no_digit id
    have hne : ∀ word : String, s ≠ word → s.toList ≠ word.toList :=
      fun word hword heq => hword (String.toList_inj.mp heq)
    rw [Value.text, fieldValue_of_float? hnone]
    unfold textValue
    split
    · rename_i c hc
      exact absurd (by rw [← String.length_toList, hc]; rfl) hlength
    · rw [if_neg (hne _ hoo), if_neg (hne _ hdili), String.ofList_toList]
  | float _ => exact h.elim
  | fn _ => exact h.elim
  | builtin _ => exact h.elim
  | nil => exact h.elim

/-! ## A line -/

/-- A value that is typed into an input line, with blanks around its text. -/
structure TypedField where
  before : List Char
  value : Value
  after : List Char
  blankBefore : ∀ c ∈ before, Text.isBlank c = true
  blankAfter : ∀ c ∈ after, Text.isBlank c = true
  enterable : value.Enterable

namespace TypedField

/-- The characters of the field. -/
def chars (field : TypedField) : List Char :=
  field.before ++ (field.value.text.toList ++ field.after)

/-- The line that the fields make up. -/
def line (fields : List TypedField) : String :=
  String.ofList (Text.join ',' (fields.map chars))

theorem not_mem_chars (field : TypedField) : ',' ∉ field.chars := by
  have hbefore : ',' ∉ field.before := fun hmem => absurd (field.blankBefore _ hmem) (by decide)
  have hafter : ',' ∉ field.after := fun hmem => absurd (field.blankAfter _ hmem) (by decide)
  simp [chars, hbefore, hafter, Value.not_mem_text field.enterable]

theorem fieldValue_trim_chars (field : TypedField) :
    Entry.fieldValue (Text.trim field.chars) = field.value := by
  have htrimmed := Value.trimmed_text field.enterable
  rw [chars, Text.trim_of_blanks field.blankBefore field.blankAfter htrimmed,
    Entry.fieldValue_text field.enterable]

end TypedField

/-- **Displayed values can be typed in again.** The texts of values, with commas between them and
any blanks around them, are read as exactly these values, if each is a whole number, a truth value,
or a character or text that looks like nothing else. -/
theorem typed_values_read (fields : List TypedField) (h : fields ≠ []) :
    Entry.values (TypedField.line fields) = fields.map TypedField.value := by
  have hne : fields.map TypedField.chars ≠ [] := by simpa using h
  have hfields : ∀ part ∈ fields.map TypedField.chars, ',' ∉ part := by
    intro part hpart
    obtain ⟨field, -, rfl⟩ := List.mem_map.mp hpart
    exact field.not_mem_chars
  rw [Entry.values, TypedField.line, String.toList_ofList, Text.split_join hne hfields,
    List.map_map]
  exact List.map_congr_left fun field _ => field.fieldValue_trim_chars

/-- The smallest whole number, a lone sign, no text at all, a word for infinity, digits that are no
number, and a truth value. -/
def TypedField.deceptive : List TypedField :=
  [⟨[], .int Int64.minValue, [' '], List.forall_mem_nil _, List.all_eq_true.mp rfl, trivial⟩,
    ⟨[' '], .char '+', [], List.all_eq_true.mp rfl, List.forall_mem_nil _, by decide⟩,
    ⟨['\t'], .str "", [], List.all_eq_true.mp rfl, List.forall_mem_nil _, by decide⟩,
    ⟨[], .str "inf", [], List.forall_mem_nil _, List.forall_mem_nil _, by decide⟩,
    ⟨[' '], .str "1 2", [], List.all_eq_true.mp rfl, List.forall_mem_nil _, by decide⟩,
    ⟨[], .bool true, ['\r'], List.forall_mem_nil _, List.all_eq_true.mp rfl, trivial⟩]

theorem typed_values_read_deceptive :
    TypedField.line TypedField.deceptive = "-9223372036854775808 , +,\t,inf, 1 2,OO\r" ∧
      Entry.values (TypedField.line TypedField.deceptive) =
        [.int Int64.minValue, .char '+', .str "", .str "inf", .str "1 2", .bool true] :=
  ⟨by decide +kernel, typed_values_read TypedField.deceptive (List.cons_ne_nil _ _)⟩

end Sugod
