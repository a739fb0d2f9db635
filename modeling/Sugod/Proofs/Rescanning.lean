import Sugod.Text.Split
import Sugod.Proofs.Spelling

/-!
# Writing tokens on rows and scanning them again

A token can be written on a row of its own, with blanks around it and a comment behind it
(`WrittenRow`). Scanning such rows gives the tokens back (`written_rows_scan`), and so does scanning
the bare texts of the tokens of any source (`rescan_lexemes`), because every token is spelled by its
own text, whatever stood behind it in the source.

A row that holds a single token is scanned by itself (`Scan.Single`). Rows are scanned apart, so
one induction over the rows is left (`Scan.proper_join`).
-/

set_option autoImplicit false

namespace Sugod

/-- The same token on another line. -/
def Token.onLine (line : Nat) (t : Token) : Token :=
  { t with line := line }

/-- A token on a row of its own: blanks, its text, and the end of the row. -/
structure WrittenRow where
  kind : Kind
  before : List Char
  text : List Char
  behind : List Char
  blank : ∀ c ∈ before, Piece.isGap c = true
  spelled : kind.Spelled text
  ends : Text.RowEnd behind

namespace WrittenRow

/-- The characters of the row. -/
def chars (w : WrittenRow) : List Char :=
  w.before ++ (w.text ++ w.behind)

/-- The token on the row. -/
def token (w : WrittenRow) : Token :=
  ⟨w.kind, String.ofList w.text, 1⟩

/-- The characters of rows, one below the other. -/
def page (rows : List WrittenRow) : List Char :=
  Text.join '\n' (rows.map chars)

end WrittenRow

/-! ## One row -/

theorem Kind.Spelled.ne_nil {kind : Kind} {text : List Char} (h : kind.Spelled text) :
    text ≠ [] := by
  cases h with
  | symbol h =>
    have hsymbols : ∀ p ∈ Mark.symbols, p.1 ≠ [] := by decide
    exact hsymbols _ h
  | keyword h =>
    have hwords : ∀ p ∈ Mark.words, p.1.toList ≠ [] := by decide
    exact hwords _ h
  | twoWords h hne hgap => simp [hne]
  | identifier h hfree =>
    rintro rfl
    cases h
  | int zeros h => simp [Decimal.numeral_ne_nil]
  | float hds hfs => simp
  | quotedChar h => simp
  | bracketedChar h => simp
  | lineFeed => simp
  | string hquote hrow hfree => simp
  | quotedTruth h => simp

namespace Piece

theorem pieces_blank {c : Char} (hc : isGap c = true) (cs : List Char) :
    pieces (c :: cs) = ⟨.skip, [c]⟩ :: pieces cs := by
  rcases isGap_iff.mp hc with rfl | rfl
  · exact pieces_cons ' ' cs
  · exact pieces_cons '\t' cs

theorem pieces_blanks {before : List Char} (h : ∀ c ∈ before, isGap c = true) (cs : List Char) :
    pieces (before ++ cs) = before.map (fun c => ⟨.skip, [c]⟩) ++ pieces cs := by
  induction before with
  | nil => rfl
  | cons c before ih =>
    obtain ⟨hc, hbefore⟩ := List.forall_mem_cons.mp h
    rw [List.cons_append, pieces_blank hc, ih hbefore]
    rfl

/-- A spelling at the end of a row is one piece. -/
theorem pieces_spelled {kind : Kind} {text behind : List Char} (h : kind.Spelled text)
    (hend : Text.RowEnd behind) :
    pieces (text ++ behind) = ⟨.token kind, text⟩ :: pieces behind := by
  obtain ⟨c, more, rfl⟩ := List.exists_cons_of_ne_nil h.ne_nil
  rw [List.cons_append, pieces_cons, first_of_spelled h hend, List.take_left, List.drop_left]

/-- The end of a row is skipped. -/
theorem skip_of_rowEnd {behind : List Char} (h : Text.RowEnd behind) :
    ∀ p ∈ pieces behind, p.finding = .skip := by
  induction h with
  | nil => exact List.forall_mem_nil _
  | blank hc _ ih =>
    rw [pieces_blank hc]
    exact List.forall_mem_cons.mpr ⟨rfl, ih⟩
  | @comment text hrow =>
    have htake : restOfRow text = text := by
      refine List.takeWhile_eq_self_iff.mpr fun c hc => decide_eq_true ?_
      rintro rfl
      exact hrow hc
    have hfirst : first '#' text = (.skip, (restOfRow text).length) := rfl
    rw [pieces_cons, hfirst, htake, List.drop_length]
    exact List.forall_mem_cons.mpr ⟨rfl, List.forall_mem_nil _⟩

/-- The text of a token holds no line feed. -/
theorem not_mem_of_spelled {kind : Kind} {text : List Char} (h : kind.Spelled text) :
    '\n' ∉ text := by
  obtain ⟨c, more, rfl⟩ := List.exists_cons_of_ne_nil h.ne_nil
  have hfirst := first_of_spelled h .nil
  have hc : c ≠ '\n' := by
    rintro rfl
    cases hfirst
  have hrow := not_mem_first hc (more ++ [])
  rwa [hfirst, List.append_nil, List.take_length] at hrow

theorem not_mem_of_rowEnd {behind : List Char} (h : Text.RowEnd behind) : '\n' ∉ behind := by
  induction h with
  | nil => exact List.not_mem_nil
  | blank hc _ ih =>
    rcases isGap_iff.mp hc with rfl | rfl <;> simpa using ih
  | comment hrow => simpa using hrow

end Piece

namespace Scan

open Piece

/-- A row that is scanned as a single token. -/
structure Single (row : List Char) (t : Token) : Prop where
  inRow : '\n' ∉ row
  tokens : proper row = [t.onLine 1]
  errors : (ofChars row).errors = []

/-- Nothing is found in pieces that are skipped. -/
theorem collect_skip {α : Type} {f : Nat → Piece → Option α}
    (hf : ∀ line p, p.finding = .skip → f line p = none) {ps : List Piece}
    (h : ∀ p ∈ ps, p.finding = .skip) (line : Nat) :
    collect f line ps = [] ∧ ps.foldl nextLine line = line := by
  induction ps with
  | nil => exact ⟨rfl, rfl⟩
  | cons p ps ih =>
    obtain ⟨hp, hps⟩ := List.forall_mem_cons.mp h
    have hline : nextLine line p = line := by
      unfold nextLine
      rw [hp]
    obtain ⟨hcollect, hfold⟩ := ih hps
    rw [collect, hf line p hp, List.foldl_cons, hline]
    exact ⟨hcollect, hfold⟩

/-- What is found in a written row is found in its token. -/
theorem collect_written {α : Type} {f : Nat → Piece → Option α}
    (hf : ∀ line p, p.finding = .skip → f line p = none) (w : WrittenRow) :
    collect f 1 (pieces w.chars) = (f 1 ⟨.token w.kind, w.text⟩).toList := by
  have hbefore : ∀ p ∈ w.before.map fun c => (⟨.skip, [c]⟩ : Piece), p.finding = .skip := by
    intro p hp
    obtain ⟨c, -, rfl⟩ := List.mem_map.mp hp
    rfl
  obtain ⟨hnone, hline⟩ := collect_skip hf hbefore 1
  obtain ⟨hrest, -⟩ := collect_skip hf (skip_of_rowEnd w.ends) 1
  have hnext : nextLine 1 ⟨.token w.kind, w.text⟩ = 1 := rfl
  rw [WrittenRow.chars, pieces_blanks w.blank, pieces_spelled w.spelled w.ends, collect_append,
    hnone, hline, collect, hnext, hrest, List.append_nil, List.nil_append]

/-- **A written row is scanned as its token.** -/
theorem single_written (w : WrittenRow) : Single w.chars w.token where
  inRow := by
    have hbefore : '\n' ∉ w.before := fun hmem => absurd (w.blank _ hmem) (by decide)
    have htext := not_mem_of_spelled w.spelled
    have hbehind := not_mem_of_rowEnd w.ends
    simp [WrittenRow.chars, hbefore, htext, hbehind]
  tokens := collect_written (fun line p hp => by unfold token?; rw [hp]) w
  errors := collect_written (fun line p hp => by unfold error?; rw [hp]) w

/-! ## Many rows -/

theorem inRow_of_single {rows : List (List Char)} {ts : List Token}
    (h : List.Forall₂ Single rows ts) : ∀ row ∈ rows, '\n' ∉ row := by
  induction h with
  | nil => exact List.forall_mem_nil _
  | cons hrow _ ih => exact List.forall_mem_cons.mpr ⟨hrow.inRow, ih⟩

/-- Numbered tokens, one line further down. -/
theorem map_down_onLine (ts : List Token) :
    (ts.mapIdx fun i t => t.onLine (i + 1)).map (Token.down 1) =
      ts.mapIdx fun i t => t.onLine (i + 1 + 1) := by
  rw [List.mapIdx_eq_zipIdx_map, List.mapIdx_eq_zipIdx_map, List.map_map]
  rfl

/-- **Rows of single tokens are scanned as these tokens**, each on the line of its row. -/
theorem proper_join {rows : List (List Char)} {ts : List Token} (h : List.Forall₂ Single rows ts) :
    proper (Text.join '\n' rows) = ts.mapIdx (fun i t => t.onLine (i + 1)) := by
  induction h with
  | nil => rfl
  | @cons row t rows ts hrow hrest ih =>
    cases hrest with
    | nil => exact hrow.tokens
    | @cons next u rows ts hnext hmore =>
      have hcount : row.count '\n' = 0 := List.count_eq_zero.mpr hrow.inRow
      have hnumbered : (t :: u :: ts).mapIdx (fun i t => t.onLine (i + 1)) =
          [t.onLine 1] ++ (u :: ts).mapIdx (fun i t => t.onLine (i + 1 + 1)) := List.mapIdx_cons
      show proper (row ++ '\n' :: Text.join '\n' (next :: rows)) = _
      rw [proper_append, hrow.tokens, ih, hcount, Nat.add_zero, map_down_onLine, hnumbered]

theorem errors_join {rows : List (List Char)} {ts : List Token} (h : List.Forall₂ Single rows ts) :
    (ofChars (Text.join '\n' rows)).errors = [] := by
  induction h with
  | nil => rfl
  | @cons row t rows ts hrow hrest ih =>
    cases hrest with
    | nil => exact hrow.errors
    | cons hnext hmore =>
      show (ofChars (row ++ '\n' :: Text.join '\n' (_ :: _))).errors = _
      rw [errors_append, hrow.errors, ih]
      rfl

theorem endToken_join {rows : List (List Char)} {ts : List Token}
    (h : List.Forall₂ Single rows ts) :
    endToken (Text.join '\n' rows) = ⟨.eof, "", max 1 ts.length⟩ := by
  have hline :
      endToken (Text.join '\n' rows) = ⟨.eof, "", 1 + (Text.join '\n' rows).count '\n'⟩ := by
    rw [endToken, foldl_nextLine_pieces]
  have hlength : rows.length = ts.length := h.length_eq
  rw [hline]
  by_cases hne : rows = []
  · subst hne
    rw [← hlength]
    rfl
  · -- There is one row more than there are line feeds.
    have hcount := Text.length_split '\n' (Text.join '\n' rows)
    have hpos : 0 < ts.length := hlength ▸ List.length_pos_iff.mpr hne
    rw [Text.split_join hne (inRow_of_single h)] at hcount
    rw [Nat.add_comm 1, ← hcount, hlength, Nat.max_eq_right hpos]

/-! ## The tokens of a source -/

/-- A piece that is a token has the kind that its text spells. -/
theorem spelled_of_mem_pieces {cs : List Char} {p : Piece} (h : p ∈ pieces cs) {kind : Kind}
    (hkind : p.finding = .token kind) : kind.Spelled p.text := by
  induction hn : cs.length using Nat.strongRecOn generalizing cs with
  | _ n ih =>
    cases cs with
    | nil => cases h
    | cons c cs =>
      rw [pieces_cons] at h
      rcases List.mem_cons.mp h with rfl | h
      · exact spelled_of_first (Prod.ext hkind rfl)
      · refine ih _ ?_ h rfl
        rw [List.length_drop, ← hn, List.length_cons]
        omega

theorem spelled_of_mem_collect {ps : List Piece}
    (h : ∀ p ∈ ps, ∀ kind, p.finding = .token kind → kind.Spelled p.text) {line : Nat} {t : Token}
    (ht : t ∈ collect token? line ps) : t.kind.Spelled t.lexeme.toList := by
  induction ps generalizing line with
  | nil => cases ht
  | cons p ps ih =>
    obtain ⟨hp, hps⟩ := List.forall_mem_cons.mp h
    rcases List.mem_append.mp ht with ht | ht
    · have htoken : token? line p = some t := Option.mem_toList.mp ht
      unfold token? at htoken
      split at htoken
      · rename_i kind hkind
        obtain rfl := Option.some.inj htoken
        rw [String.toList_ofList]
        exact hp kind hkind
      · cases htoken
    · exact ih hps ht

/-- The text of a token, on a row of its own. -/
theorem single_lexeme {cs : List Char} {t : Token} (h : t ∈ proper cs) :
    Single t.lexeme.toList t := by
  have hspelled : t.kind.Spelled t.lexeme.toList :=
    spelled_of_mem_collect (fun _ hp _ hkind => spelled_of_mem_pieces hp hkind) h
  let w : WrittenRow := ⟨t.kind, [], t.lexeme.toList, [], List.forall_mem_nil _, hspelled, .nil⟩
  have hchars : w.chars = t.lexeme.toList := List.append_nil _
  have htoken : w.token.onLine 1 = t.onLine 1 := by
    simp only [w, WrittenRow.token, Token.onLine, String.ofList_toList]
  obtain ⟨hrow, htokens, herrors⟩ := single_written w
  rw [hchars] at hrow htokens herrors
  exact ⟨hrow, htokens.trans (congrArg (fun t => [t]) htoken), herrors⟩

/-- The tokens of a scan, without the end. -/
def ordinary (scan : Scan) : List Token :=
  scan.tokens.filter fun t => !t.kind.isEof

/-- The texts of tokens, one to a row. -/
def rowsOf (ts : List Token) : List Char :=
  Text.join '\n' (ts.map fun t => t.lexeme.toList)

/-- **Scanning the texts of the tokens of a source again, one to a row, changes nothing.** There is
no error, and the tokens have their kinds and texts, the `i`-th on line `i`. -/
theorem rescan_lexemes (source : String) :
    (ofChars (rowsOf (ofSource source).ordinary)).errors = [] ∧
      (ofChars (rowsOf (ofSource source).ordinary)).tokens =
        (ofSource source).ordinary.mapIdx (fun i t => t.onLine (i + 1)) ++
          [⟨.eof, "", max 1 (ofSource source).ordinary.length⟩] := by
  have hproper : (ofSource source).ordinary = proper source.toList := filter_tokens source.toList
  have hsingle : List.Forall₂ Single ((ofSource source).ordinary.map fun t => t.lexeme.toList)
      (ofSource source).ordinary := by
    rw [List.forall₂_map_left_iff, List.forall₂_same, hproper]
    exact fun t ht => single_lexeme ht
  refine ⟨errors_join hsingle, ?_⟩
  show proper (rowsOf _) ++ [endToken (rowsOf _)] = _
  rw [rowsOf, proper_join hsingle, endToken_join hsingle]

/-! ## Tokens that are written down -/

theorem map_kind_onLine (ts : List Token) :
    (ts.mapIdx fun i t => t.onLine (i + 1)).map Token.kind = ts.map Token.kind := by
  rw [List.mapIdx_eq_zipIdx_map, List.map_map]
  show ts.zipIdx.map (Token.kind ∘ Prod.fst) = _
  rw [← List.map_map, List.zipIdx_map_fst]

/-- **Every token can be written and read back.** Every kind that can be written has a spelling, and
rows that hold one written token each, with whatever blanks and comments, are scanned without an
error as tokens of their kinds, and the end. -/
theorem written_rows_scan :
    (∀ kind : Kind, kind.Writable → ∃ text, kind.Spelled text) ∧
      ∀ (rows : List WrittenRow) (last : List Char), (last = [] ∨ last = ['\n']) →
        (ofChars (WrittenRow.page rows ++ last)).errors = [] ∧
          (ofChars (WrittenRow.page rows ++ last)).tokens.map Token.kind =
            rows.map WrittenRow.kind ++ [.eof] := by
  refine ⟨fun _ => Kind.exists_spelled, fun rows last hlast => ?_⟩
  have hsingle : List.Forall₂ Single (rows.map WrittenRow.chars) (rows.map WrittenRow.token) := by
    rw [List.forall₂_map_left_iff, List.forall₂_map_right_iff, List.forall₂_same]
    exact fun w _ => single_written w
  have hkinds : (proper (WrittenRow.page rows)).map Token.kind = rows.map WrittenRow.kind := by
    rw [WrittenRow.page, proper_join hsingle, map_kind_onLine, List.map_map]
    rfl
  -- A line feed at the end adds nothing.
  have hplain : ∀ cs, proper (cs ++ last) = proper cs ∧
      (ofChars (cs ++ last)).errors = (ofChars cs).errors := by
    intro cs
    rcases hlast with rfl | rfl
    · rw [List.append_nil]
      exact ⟨rfl, rfl⟩
    · exact ⟨proper_append_lineFeed cs, errors_append_lineFeed cs⟩
  refine ⟨(hplain _).2.trans (errors_join hsingle), ?_⟩
  show (proper _ ++ [endToken _]).map Token.kind = _
  rw [(hplain _).1, List.map_append, hkinds]
  rfl

/-- Two words with a tab between them, a quote in quotes, a bracketed number sign, zeros in front,
and comments that look like more. -/
theorem written_rows_scan_hard :
    (ofChars "\tKUNG \tDILI # 'x\n'''\n[#]#]\n007 \n\"KUNG#\"\n".toList).errors = [] ∧
      (ofChars "\tKUNG \tDILI # 'x\n'''\n[#]#]\n007 \n\"KUNG#\"\n".toList).tokens.map Token.kind =
        [.mark .kungDili, .char '\'', .char '#', .int 7, .string "KUNG#", .eof] := by
  have hint : (Kind.int 7).Spelled "007".toList := by
    have hnumeral : Decimal.numeral 7 = ['7'] := by
      rw [Decimal.numeral, if_pos (by decide)]
      rfl
    have hspelled := Kind.Spelled.int 2 (n := 7) (by decide)
    rwa [hnumeral] at hspelled
  have hstring : (Kind.string "KUNG#").Spelled "\"KUNG#\"".toList :=
    @Kind.Spelled.string "KUNG#".toList (by decide) (by decide) (by simp [Mark.truths])
  exact written_rows_scan.2
    [⟨.mark .kungDili, ['\t'], "KUNG \tDILI".toList, " # 'x".toList, by simp [isGap],
        @Kind.Spelled.twoWords "KUNG".toList "DILI".toList " \t".toList _ (by decide) (by decide)
          (by simp [isGap]), .blank (by decide) (.comment (by decide))⟩,
      ⟨.char '\'', [], "'''".toList, [], by simp, .quotedChar (by decide), .nil⟩,
      ⟨.char '#', [], "[#]".toList, "#]".toList, by simp, .bracketedChar (by decide),
        .comment (by decide)⟩,
      ⟨.int 7, [], "007".toList, " ".toList, by simp, hint, .blank (by decide) .nil⟩,
      ⟨.string "KUNG#", [], "\"KUNG#\"".toList, [], by simp, hstring, .nil⟩]
    ['\n'] (.inr rfl)

end Scan

end Sugod
