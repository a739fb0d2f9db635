import Mathlib.Data.List.DropRight
import Sugod.Command
import Sugod.Proofs.PipedInput
import Sugod.Proofs.Reentry

/-!
# Input from a stream and input behind a program

A program is run in one of two ways, and each has its own reader of input lines. If the program is a
file, the lines come from a stream of bytes, which is cut at line feeds before it is decoded. If the
program is piped in, the lines are those of the text behind it. The first reader removes every
carriage return at the end of a line, the second at most one, and only in front of a line feed.

The main statement is `stream_lines`. The two readers give the same lines exactly if no line of the
text ends with a carriage return; then a program does the same both ways. The values of a line
always are the same, since blanks around a field do not count.

The proof goes through the rows of a text.

* Cutting the bytes of a text at line feeds is cutting the text (`Text.split_encode`): no other
  character has the byte of a line feed in its encoding.
* Rows become lines in the same places for both readers (`Text.linesOfRows_congr`).
* On a row, removing one carriage return and then all of them is removing all of them
  (`Text.dropEnd_dropReturn`).
-/

set_option autoImplicit false

namespace Sugod

/-! ## Texts as bytes -/

namespace Text

/-- The bytes that encode a text. -/
def encode (cs : List Char) : List UInt8 :=
  cs.flatMap String.utf8EncodeChar

theorem toUTF8_eq (text : String) : text.toUTF8 = (encode text.toList).toByteArray := by
  show text.toByteArray = text.toList.utf8Encode
  exact String.utf8Encode_toList.symm

theorem data_toUTF8 (text : String) : text.toUTF8.data.toList = encode text.toList := by
  rw [toUTF8_eq, List.toList_data_toByteArray]

theorem fromUTF8?_encode (cs : List Char) :
    String.fromUTF8? ⟨(encode cs).toArray⟩ = some (String.ofList cs) := by
  have hbytes : (⟨(encode cs).toArray⟩ : ByteArray) = cs.utf8Encode := by
    apply ByteArray.ext
    rw [← Array.toList_inj, List.utf8Encode, List.toList_data_toByteArray]
    rfl
  rw [hbytes, String.fromUTF8?, dif_pos (ByteArray.isValidUTF8_utf8Encode)]
  rfl

/-- Only the line feed has the byte of a line feed in its encoding: all bytes of a longer encoding
are at least 128. -/
theorem eq_lineFeed_of_mem {c : Char} (h : 10 ∈ String.utf8EncodeChar c) : c = '\n' := by
  have hbyte : ∀ n, (10 : UInt8) = UInt8.ofNat n → n % 256 = 10 := by
    intro n hn
    simpa using (congrArg UInt8.toNat hn).symm
  refine Char.ext (UInt32.toNat_inj.mp ?_)
  show c.val.toNat = 10
  unfold String.utf8EncodeChar at h
  generalize c.val.toNat = v at h ⊢
  simp only at h
  split at h
  · -- A single byte is the code of the character.
    have hv := hbyte _ (List.mem_singleton.mp h)
    omega
  · -- The bytes of two, three or four have a mark of 128 or more added to them.
    have hlarge : ∀ n, 128 ≤ n → n < 256 → (10 : UInt8) ≠ UInt8.ofNat n := by
      intro n hlow hhigh hn
      have hmod := hbyte n hn
      omega
    exfalso
    split at h
    · rcases List.mem_pair.mp h with h | h <;> exact hlarge _ (by omega) (by omega) h
    · split at h
      · simp only [List.mem_cons, List.not_mem_nil, or_false] at h
        rcases h with h | h | h <;> exact hlarge _ (by omega) (by omega) h
      · simp only [List.mem_cons, List.not_mem_nil, or_false] at h
        rcases h with h | h | h | h <;> exact hlarge _ (by omega) (by omega) h

theorem not_mem_encode {cs : List Char} (h : '\n' ∉ cs) : 10 ∉ encode cs := by
  intro hmem
  obtain ⟨c, hc, hbyte⟩ := List.mem_flatMap.mp hmem
  exact h (eq_lineFeed_of_mem hbyte ▸ hc)

theorem isEmpty_encode (cs : List Char) : (encode cs).isEmpty = cs.isEmpty := by
  cases cs with
  | nil => rfl
  | cons c cs => simp [encode, String.utf8EncodeChar_ne_nil]

theorem encode_join (parts : List (List Char)) :
    encode (join '\n' parts) = join 10 (parts.map encode) := by
  induction parts with
  | nil => rfl
  | cons part parts ih =>
    cases parts with
    | nil => rfl
    | cons next rest =>
      have hsplit : encode (part ++ '\n' :: join '\n' (next :: rest)) =
          encode part ++ 10 :: encode (join '\n' (next :: rest)) := List.flatMap_append
      rw [join, hsplit, ih]
      rfl

/-- **Bytes are cut at line feeds where the text is.** -/
theorem split_encode (cs : List Char) : split 10 (encode cs) = (split '\n' cs).map encode := by
  have hne : (split '\n' cs).map encode ≠ [] := by simpa using split_ne_nil '\n' cs
  have hfree : ∀ part ∈ (split '\n' cs).map encode, 10 ∉ part := by
    intro part hpart
    obtain ⟨row, hrow, rfl⟩ := List.mem_map.mp hpart
    exact not_mem_encode (not_mem_of_mem_split hrow)
  calc split 10 (encode cs) = split 10 (encode (join '\n' (split '\n' cs))) := by rw [join_split]
    _ = split 10 (join 10 ((split '\n' cs).map encode)) := by rw [encode_join]
    _ = (split '\n' cs).map encode := split_join hne hfree

/-! ## Lines of rows -/

section Rows

variable {α β γ : Type} {close last close' last' : List α → β}

theorem linesOfRows_congr {rows : List (List α)} (hclose : ∀ row ∈ rows, close row = close' row)
    (hlast : ∀ row ∈ rows, last row = last' row) :
    linesOfRows close last rows = linesOfRows close' last' rows := by
  induction rows with
  | nil => rfl
  | cons row rows ih =>
    obtain ⟨hrow, hrows⟩ := List.forall_mem_cons.mp hclose
    obtain ⟨hend, hends⟩ := List.forall_mem_cons.mp hlast
    cases rows with
    | nil => rw [linesOfRows, linesOfRows, hend]
    | cons next rows => rw [linesOfRows, linesOfRows, hrow, ih hrows hends]

theorem map_linesOfRows (g : β → γ) (rows : List (List α)) :
    (linesOfRows close last rows).map g =
      linesOfRows (fun row => g (close row)) (fun row => g (last row)) rows := by
  induction rows with
  | nil => rfl
  | cons row rows ih =>
    cases rows with
    | nil =>
      rw [linesOfRows, linesOfRows]
      split <;> rfl
    | cons next rows => rw [linesOfRows, linesOfRows, List.map_cons, ih]

/-- Rows may be rewritten before they are taken as lines if no row becomes empty or ceases to be. -/
theorem linesOfRows_map {g : List γ → List α} (hg : ∀ row, (g row).isEmpty = row.isEmpty)
    (rows : List (List γ)) :
    linesOfRows close last (rows.map g) =
      linesOfRows (fun row => close (g row)) (fun row => last (g row)) rows := by
  induction rows with
  | nil => rfl
  | cons row rows ih =>
    cases rows with
    | nil => simp only [List.map_cons, List.map_nil, linesOfRows, hg]
    | cons next rows =>
      rw [List.map_cons] at ih ⊢
      rw [List.map_cons, linesOfRows, linesOfRows, ih]

end Rows

/-! ## Ends of lines -/

/-- Whether a character is a carriage return. -/
def isReturn (c : Char) : Bool :=
  c = '\r'

theorem dropEnd_concat (p : Char → Bool) (cs : List Char) (c : Char) :
    dropEnd p (cs ++ [c]) = if p c then dropEnd p cs else cs ++ [c] :=
  List.rdropWhile_concat p cs c

theorem dropEnd_congr {p q : Char → Bool} {cs : List Char} (h : ∀ c ∈ cs, p c = q c) :
    dropEnd p cs = dropEnd q cs := by
  induction cs using List.reverseRecOn with
  | nil => rfl
  | append_singleton cs c ih =>
    have hc : p c = q c := h c (by simp)
    rw [dropEnd_concat, dropEnd_concat, hc, ih fun d hd => h d (List.mem_append_left _ hd)]

theorem dropEnd_eq_self_iff {p : Char → Bool} {cs : List Char} :
    dropEnd p cs = cs ↔ ∀ c ∈ cs.getLast?, p c = false := by
  refine List.rdropWhile_eq_self_iff.trans ?_
  cases cs with
  | nil => simp
  | cons c cs => simp [List.getLast?_eq_some_getLast]

/-- What is removed at the end of a text satisfies `p`. -/
theorem exists_dropEnd_append (p : Char → Bool) (cs : List Char) :
    ∃ after, cs = dropEnd p cs ++ after ∧ ∀ c ∈ after, p c = true := by
  refine ⟨(cs.reverse.takeWhile p).reverse, ?_, fun c hc => ?_⟩
  · rw [dropEnd, ← List.reverse_append, List.takeWhile_append_dropWhile, List.reverse_reverse]
  · exact List.mem_takeWhile_imp (List.mem_reverse.mp hc)

theorem dropReturn_concat (cs : List Char) (c : Char) :
    dropReturn (cs ++ [c]) = if isReturn c then cs else cs ++ [c] := by
  unfold dropReturn isReturn
  rw [List.reverse_append, List.reverse_singleton, List.singleton_append]
  by_cases hc : c = '\r'
  · subst hc
    simp
  · simp [hc]

/-- A carriage return that ends a line is one of those that are removed anyway. -/
theorem dropEnd_dropReturn (row : List Char) :
    dropEnd isReturn (dropReturn row) = dropEnd isReturn row := by
  induction row using List.reverseRecOn with
  | nil => rfl
  | append_singleton cs c ih =>
    rw [dropReturn_concat, dropEnd_concat]
    split
    · rfl
    · rename_i hc
      rw [dropEnd_concat, if_neg hc]

theorem dropEnd_isLineEnd {row : List Char} (h : '\n' ∉ row) :
    dropEnd isLineEnd row = dropEnd isReturn row := by
  refine dropEnd_congr fun c hc => ?_
  have hne : c ≠ '\n' := by
    rintro rfl
    exact h hc
  simp [isLineEnd, isReturn, hne]

end Text

/-! ## The lines of a stream -/

namespace Command

open Text

theorem decodeLine_encode (row : List Char) :
    decodeLine (encode row) = .ok (String.ofList (dropEnd isLineEnd row)) := by
  simp only [decodeLine, fromUTF8?_encode, String.toList_ofList]

/-- **The lines of a stream are the lines of its text, without carriage returns at their ends.** -/
theorem streamLines_toUTF8 (text : String) : streamLines text.toUTF8 =
    (lines text.toList).map fun line => .ok (String.ofList (dropEnd isReturn line)) := by
  unfold streamLines lines
  rw [data_toUTF8, split_encode, linesOfRows_map isEmpty_encode, map_linesOfRows]
  refine linesOfRows_congr (fun row hrow => ?_) fun row hrow => ?_
  · rw [decodeLine_encode, dropEnd_isLineEnd (not_mem_of_mem_split hrow), dropEnd_dropReturn]
  · rw [decodeLine_encode, dropEnd_isLineEnd (not_mem_of_mem_split hrow)]
    rfl

end Command

/-! ## Values of an input line -/

namespace Text

/-- Only the last part grows if something without a separator is put behind a text. -/
theorem split_append_of_not_mem {sep : Char} {after : List Char} (h : sep ∉ after)
    (cs : List Char) :
    ∃ parts part, split sep cs = parts ++ [part] ∧
      split sep (cs ++ after) = parts ++ [part ++ after] := by
  induction cs with
  | nil => exact ⟨[], [], rfl, split_of_not_mem h⟩
  | cons c cs ih =>
    obtain ⟨parts, part, hbefore, hafter⟩ := ih
    by_cases hc : c = sep
    · refine ⟨[] :: parts, part, ?_, ?_⟩
      · rw [split, if_pos hc, hbefore]
        rfl
      · rw [List.cons_append, split, if_pos hc, hafter]
        rfl
    · cases parts with
      | nil =>
        refine ⟨[], c :: part, ?_, ?_⟩
        · rw [split, if_neg hc, hbefore]
          rfl
        · rw [List.cons_append, split, if_neg hc, hafter]
          rfl
      | cons first parts =>
        refine ⟨(c :: first) :: parts, part, ?_, ?_⟩
        · rw [split, if_neg hc, hbefore]
          rfl
        · rw [List.cons_append, split, if_neg hc, hafter]
          rfl

/-- Blanks behind a text make no difference to what is left of it. -/
theorem trim_append {after : List Char} (h : ∀ c ∈ after, isBlank c = true) (cs : List Char) :
    trim (cs ++ after) = trim cs := by
  have hend : ∀ cs, dropEnd isBlank (cs ++ after) = dropEnd isBlank cs := by
    intro cs
    unfold dropEnd
    rw [List.reverse_append, List.dropWhile_append_of_pos fun c hc => h c (List.mem_reverse.mp hc)]
  unfold trim
  rw [List.dropWhile_append]
  split
  · rename_i hall
    rw [List.isEmpty_iff.mp hall, List.dropWhile_eq_nil_iff.mpr h]
  · exact hend _

end Text

/-- Carriage returns at the end of a line make no difference to its values. -/
theorem Entry.values_dropEnd (line : List Char) :
    values (String.ofList (Text.dropEnd Text.isReturn line)) = values (String.ofList line) := by
  obtain ⟨after, hline, hreturns⟩ := Text.exists_dropEnd_append Text.isReturn line
  have hreturn : ∀ c ∈ after, c = '\r' := fun c hc => of_decide_eq_true (hreturns c hc)
  have hblank : ∀ c ∈ after, Text.isBlank c = true := fun c hc => hreturn c hc ▸ rfl
  have hcomma : ',' ∉ after := fun hc => absurd (hreturn _ hc) (by decide)
  -- Only the last field has them, and it is trimmed.
  obtain ⟨parts, part, hbefore, hafter⟩ :=
    Text.split_append_of_not_mem hcomma (Text.dropEnd Text.isReturn line)
  rw [← hline] at hafter
  unfold values
  rw [String.toList_ofList, String.toList_ofList, hbefore, hafter, List.map_append, List.map_append,
    List.map_singleton, List.map_singleton, Text.trim_append hblank]

/-! ## The two ways to run a program -/

/-- A program that ends with the row of its first `KATAPUSAN`, and with a line feed. -/
structure Piped.IsProgram (program : List Char) : Prop where
  found : ((Scan.proper program).find? (Token.is .katapusan)).isSome = true
  whole : ofSource program = ⟨program, []⟩
  ended : program.getLast? = some '\n'

theorem Piped.IsProgram.ofSource_append {program : List Char} (h : IsProgram program)
    (input : List Char) : ofSource (program ++ input) = ⟨program, Text.lines input⟩ := by
  obtain ⟨t, ht⟩ := Option.isSome_iff_exists.mp h.found
  have hdivided := dividedBehind_of_find? ht
  rw [h.whole] at hdivided
  exact hdivided.stable h.ended input

namespace Command

theorem decode_toUTF8 (text : String) : decode text.toUTF8 = .ok text := by
  have hbytes : String.fromUTF8? text.toUTF8 = some text := dif_pos text.isValidUTF8
  rw [decode, hbytes]

theorem runFile_eq (steps : Nat) (clock : Nat → Float) (name program input : String) :
    runFile steps clock name (.ok program.toUTF8) input.toUTF8 =
      runWith steps clock program ((Text.lines input.toList).map fun line =>
        .ok (String.ofList (Text.dropEnd Text.isReturn line))) := by
  have hdecode : (.ok program.toUTF8 >>= decode : Except ReadFailure String) = .ok program :=
    decode_toUTF8 program
  rw [runFile, hdecode, ← streamLines_toUTF8]

theorem runPiped_eq (steps : Nat) (clock : Nat → Float) {program : String}
    (h : Piped.IsProgram program.toList) (input : String) :
    runPiped steps clock (program ++ input).toUTF8 =
      runWith steps clock program ((Text.lines input.toList).map fun line =>
        .ok (String.ofList line)) := by
  rw [runPiped, decode_toUTF8]
  simp only [String.toList_append, h.ofSource_append, String.ofList_toList]

end Command

theorem Text.dropEnd_isReturn_eq_self {line : List Char} :
    dropEnd isReturn line = line ↔ line.getLast? ≠ some '\r' := by
  rw [dropEnd_eq_self_iff]
  constructor
  · intro h hlast
    cases h '\r' hlast
  · intro h c hc
    refine decide_eq_false ?_
    rintro rfl
    exact h hc

/-- **Input from a stream and input behind a program.** A stream gives the lines that stand behind a
piped program, but without the carriage returns at their ends. The lines are the same exactly if
none has one there. The values of the lines always are the same. A program whose input has no such
line does the same whichever way it is run. -/
theorem stream_lines (input : String) :
    (Command.streamLines input.toUTF8 = (Text.lines input.toList).map fun line =>
        .ok (String.ofList (Text.dropEnd Text.isReturn line))) ∧
      (Command.streamLines input.toUTF8 = (Text.lines input.toList).map (fun line =>
          .ok (String.ofList line)) ↔
        ∀ line ∈ Text.lines input.toList, line.getLast? ≠ some '\r') ∧
      ((Command.streamLines input.toUTF8).map (·.map Entry.values) =
        (Text.lines input.toList).map fun line => .ok (Entry.values (String.ofList line))) ∧
      ((∀ line ∈ Text.lines input.toList, line.getLast? ≠ some '\r') →
        ∀ steps clock name program, Piped.IsProgram program.toList →
          Command.runFile steps clock name (.ok program.toUTF8) input.toUTF8 =
            Command.runPiped steps clock (program ++ input).toUTF8) := by
  have hlines := Command.streamLines_toUTF8 input
  refine ⟨hlines, ?_, ?_, ?_⟩
  · rw [hlines, List.map_inj_left]
    refine forall₂_congr fun line _ => ?_
    rw [← Text.dropEnd_isReturn_eq_self, Except.ok.injEq, String.ofList_inj]
  · rw [hlines, List.map_map]
    exact List.map_congr_left fun line _ => congrArg Except.ok (Entry.values_dropEnd line)
  · intro hends steps clock name program hprogram
    rw [Command.runFile_eq, Command.runPiped_eq steps clock hprogram]
    congr 1
    refine List.map_congr_left fun line hline => ?_
    rw [Text.dropEnd_isReturn_eq_self.mpr (hends line hline)]

/-- A program that displays the next input line. -/
def echoLine : String :=
  "SUGOD\nIPAKITA: scanString(\"\")\nKATAPUSAN\n"

theorem isProgram_echoLine : Piped.IsProgram echoLine.toList :=
  ⟨rfl, rfl, rfl⟩

/-- Lines with either end, and a last line without one. -/
theorem stream_lines_mixed :
    Command.streamLines "a\r\n\nb".toUTF8 = [.ok "a", .ok "", .ok "b"] ∧
      ∀ steps clock name, Command.runFile steps clock name (.ok echoLine.toUTF8) "a\r\n\nb".toUTF8 =
        Command.runPiped steps clock (echoLine ++ "a\r\n\nb").toUTF8 := by
  obtain ⟨-, hsame, -, hruns⟩ := stream_lines "a\r\n\nb"
  exact ⟨hsame.mpr (by decide),
    fun steps clock name => hruns (by decide) steps clock name echoLine isProgram_echoLine⟩

/-- Two carriage returns in front of a line feed: the stream loses both, and a program can tell. -/
theorem stream_lines_differ :
    Text.lines "a\r\r\n".toList = ["a\r".toList] ∧
      Command.streamLines "a\r\r\n".toUTF8 = [.ok "a"] ∧
      (Command.runFile 50 (fun _ => 0) "echo" (.ok echoLine.toUTF8) "a\r\r\n".toUTF8).map
        Report.stdout = some "\na" ∧
      (Command.runPiped 50 (fun _ => 0) (echoLine ++ "a\r\r\n").toUTF8).map Report.stdout =
        some "\na\r" := by
  refine ⟨by decide, ?_, by decide +kernel, by decide +kernel⟩
  rw [Command.streamLines_toUTF8]
  rfl

end Sugod
