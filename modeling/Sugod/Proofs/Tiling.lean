import Sugod.Proofs.Rows
import Mathlib.Data.List.Chain

/-!
# Tokens as stretches of the source

A scan gives texts and lines. This module says where they come from: all tokens and errors are
stretches of the source, one behind the other, on the line on which the stretch begins, and what is
left between them is layout, that is blanks, line feeds and comments. The main statement is
`tokens_tile`.

The stretches are pieces of the source. `Piece.Fits` says what the text of a piece has to do with
what the piece is; it is shown for the first piece of any text (`Piece.fits_first`). The rest is
bookkeeping along the list of pieces: their lengths add up to offsets, their line feeds to lines.
-/

set_option autoImplicit false

namespace Sugod

/-! ## What the texts of pieces look like -/

/-- What a text with this error begins with, or all of it. -/
def ScanCause.Describes (text : List Char) : ScanCause → Prop
  | unexpectedChar c => text = [c]
  | unterminatedString => text.head? = some '"'
  | unterminatedChar => text.head? = some '\''
  | charAfterNumber => text.head?.any Char.isDigit = true
  | malformedNumber digits => text = digits.toList

/-- A character that divides tokens. -/
def Text.IsSpace (c : Char) : Prop :=
  c = ' ' ∨ c = '\t' ∨ c = '\r' ∨ c = '\n'

/-- A text that holds no tokens: blanks, line feeds, and comments that run to the end of their row.
`behind` is what comes behind the text. -/
inductive Text.Layout (behind : List Char) : List Char → Prop
  | nil : Layout behind []
  | space {c : Char} {cs : List Char} (hc : IsSpace c) (h : Layout behind cs) :
      Layout behind (c :: cs)
  | comment {text cs : List Char} (htext : '\n' ∉ text)
      (hend : ∀ c ∈ (cs ++ behind).head?, c = '\n') (h : Layout behind cs) :
      Layout behind ('#' :: text ++ cs)

/-- A finding that is a token, or an error that the text bears out. -/
def Finding.Shows (text : List Char) : Finding → Prop
  | .skip => False
  | .lineFeed => False
  | .token _ => True
  | .error cause => cause.Describes text

namespace Piece

variable {c : Char} {cs : List Char}

theorem shows_string (cs : List Char) : (string cs).1.Shows ('"' :: cs.take (string cs).2) := by
  unfold string
  split
  · trivial
  · exact rfl

theorem shows_quotedChar (cs : List Char) :
    (quotedChar cs).1.Shows ('\'' :: cs.take (quotedChar cs).2) := by
  unfold quotedChar
  split
  · trivial
  · exact rfl

theorem shows_bracketedChar (cs : List Char) :
    (bracketedChar cs).1.Shows ('[' :: cs.take (bracketedChar cs).2) := by
  unfold bracketedChar
  split
  · trivial
  · show '[' :: cs.take 0 = ['[']
    rw [List.take_zero]

theorem shows_number (hc : c.isDigit = true) (cs : List Char) :
    (number c cs).1.Shows (c :: cs.take (number c cs).2) := by
  rw [number_eq]
  split
  · show (List.head? (c :: _)).any Char.isDigit = true
    rw [List.head?_cons, Option.any_some, hc]
  · split
    · -- Without a fraction the number is its digits.
      rename_i hfraction
      have hlength : numberLength cs = (cs.takeWhile Char.isDigit).length := by
        rw [numberLength, if_pos hfraction]
      have hdigits : cs.take (cs.takeWhile Char.isDigit).length = cs.takeWhile Char.isDigit :=
        (List.prefix_iff_eq_take.mp (List.takeWhile_prefix _)).symm
      show (intFinding _).Shows (c :: cs.take (numberLength cs))
      rw [hlength, hdigits]
      unfold intFinding
      split
      · trivial
      · exact String.toList_ofList.symm
    · trivial

/-- Whatever starts with a character that is not layout is a token or an error. -/
theorem shows_first (hspace : ¬Text.IsSpace c) (hcomment : c ≠ '#') (cs : List Char) :
    (first c cs).1.Shows (c :: cs.take (first c cs).2) := by
  unfold Text.IsSpace at hspace
  unfold first
  split
  · trivial
  · repeat' split
    · rename_i hblank
      exact absurd (by tauto) hspace
    · rename_i hfeed
      exact absurd (by tauto) hspace
    · trivial
    · rename_i hquote
      rw [hquote]
      exact shows_string cs
    · rename_i hquote
      rw [hquote]
      exact shows_quotedChar cs
    · rename_i hbracket
      rw [hbracket]
      exact shows_bracketedChar cs
    · rename_i hdigit
      exact shows_number hdigit cs
    · trivial
    · show c :: cs.take 0 = [c]
      rw [List.take_zero]

/-- A piece that does not start with a line feed holds none. -/
theorem not_mem_first (hc : c ≠ '\n') (cs : List Char) : '\n' ∉ c :: cs.take (first c cs).2 := by
  have hrow : '\n' ∉ cs.take (first c cs).2 := by
    by_cases hmem : '\n' ∈ cs
    · -- The piece ends in front of the first line feed.
      obtain ⟨a, b, rfl, ha⟩ := List.eq_append_cons_of_mem hmem
      have stays := first_staysInRow c
      rw [stays.append, List.take_append_of_le_length (stays.le_length a)]
      exact fun h => ha (List.mem_of_mem_take h)
    · exact fun h => hmem (List.mem_of_mem_take h)
  rw [List.mem_cons]
  rintro (heq | htake)
  · exact hc heq.symm
  · exact hrow htake

/-- Behind a comment the row is over. -/
theorem head?_drop_restOfRow (cs : List Char) :
    ∀ d ∈ (cs.drop (restOfRow cs).length).head?, d = '\n' := by
  induction cs with
  | nil =>
    intro d hd
    cases hd
  | cons c cs ih =>
    by_cases hc : c = '\n'
    · subst hc
      intro d hd
      exact (Option.some.inj hd).symm
    · have hrest : restOfRow (c :: cs) = c :: restOfRow cs := by
        simp [restOfRow, hc]
      rw [hrest]
      exact ih

/-- The text of a piece is as it has to be for what the piece is. `behind` is what comes behind
it. -/
def Fits (p : Piece) (behind : List Char) : Prop :=
  match p.finding with
  | .lineFeed => p.text = ['\n']
  | .skip =>
    (∃ c, Text.IsSpace c ∧ c ≠ '\n' ∧ p.text = [c]) ∨
      ∃ text, p.text = '#' :: text ∧ '\n' ∉ text ∧ ∀ d ∈ behind.head?, d = '\n'
  | .token kind => kind ≠ .eof ∧ p.text ≠ [] ∧ '\n' ∉ p.text
  | .error cause => cause.Describes p.text ∧ p.text ≠ [] ∧ '\n' ∉ p.text

/-- **The first piece of a text fits.** -/
theorem fits_first (c : Char) (cs : List Char) :
    Fits ⟨(first c cs).1, c :: cs.take (first c cs).2⟩ (cs.drop (first c cs).2) := by
  by_cases hfeed : c = '\n'
  · subst hfeed
    exact rfl
  · have hrow := not_mem_first hfeed cs
    by_cases hspace : Text.IsSpace c
    · have hfirst : first c cs = (.skip, 0) := by
        rcases hspace with rfl | rfl | rfl | rfl
        · rfl
        · rfl
        · rfl
        · exact absurd rfl hfeed
      rw [hfirst]
      exact .inl ⟨c, hspace, hfeed, rfl⟩
    · by_cases hcomment : c = '#'
      · subst hcomment
        have hfirst : first '#' cs = (.skip, (restOfRow cs).length) := rfl
        rw [hfirst] at hrow ⊢
        exact .inr ⟨_, rfl, fun h => hrow (List.mem_cons_of_mem _ h), head?_drop_restOfRow cs⟩
      · have hshows := shows_first hspace hcomment cs
        have hordinary := isOrdinary_first hfeed cs
        unfold Fits
        revert hshows hordinary
        cases (first c cs).1 with
        | skip => exact fun hshows _ => hshows.elim
        | lineFeed => exact fun hshows _ => hshows.elim
        | token kind => exact fun _ hkind => ⟨hkind, List.cons_ne_nil _ _, hrow⟩
        | error cause => exact fun hcause _ => ⟨hcause, List.cons_ne_nil _ _, hrow⟩

/-- Every piece of a list fits what comes behind it. -/
def AllFit : List Piece → Prop
  | [] => True
  | p :: ps => p.Fits (ps.flatMap Piece.text) ∧ AllFit ps

theorem allFit_pieces (cs : List Char) : AllFit (pieces cs) := by
  induction h : cs.length using Nat.strongRecOn generalizing cs with
  | _ n ih =>
    cases cs with
    | nil => trivial
    | cons c cs =>
      have hshorter : (cs.drop (first c cs).2).length < n := by
        rw [List.length_drop, ← h, List.length_cons]
        omega
      rw [pieces_cons]
      refine ⟨?_, ih _ hshorter _ rfl⟩
      rw [flatMap_text_pieces]
      exact fits_first c cs

/-- The lines go up by the line feeds in the text of a piece. -/
theorem Fits.nextLine_eq {p : Piece} {behind : List Char} (h : p.Fits behind) (line : Nat) :
    Scan.nextLine line p = line + p.text.count '\n' := by
  unfold Fits at h
  unfold Scan.nextLine
  cases hp : p.finding with
  | lineFeed =>
    rw [hp] at h
    have htext : p.text = ['\n'] := h
    rw [htext]
    rfl
  | skip =>
    rw [hp] at h
    have hrow : '\n' ∉ p.text := by
      rcases h with ⟨c, -, hc, htext⟩ | ⟨text, htext, hrow, -⟩
      · rw [htext, List.mem_singleton]
        exact hc.symm
      · rw [htext, List.mem_cons]
        rintro (hhash | hmem)
        · exact absurd hhash (by decide)
        · exact hrow hmem
    rw [List.count_eq_zero.mpr hrow]
    rfl
  | token kind =>
    rw [hp] at h
    rw [List.count_eq_zero.mpr h.2.2]
    rfl
  | error cause =>
    rw [hp] at h
    rw [List.count_eq_zero.mpr h.2.2]
    rfl

/-- In front of layout, a piece that is neither a token nor an error makes more layout. -/
theorem Fits.layout {p : Piece} {behind gap : List Char} (h : p.Fits (gap ++ behind))
    (hp : p.finding = .skip ∨ p.finding = .lineFeed) (hgap : Text.Layout behind gap) :
    Text.Layout behind (p.text ++ gap) := by
  unfold Fits at h
  rcases hp with hp | hp
  · rw [hp] at h
    rcases h with ⟨c, hspace, -, htext⟩ | ⟨text, htext, hrow, hend⟩
    · rw [htext]
      exact .space hspace hgap
    · rw [htext]
      exact .comment hrow hend hgap
  · rw [hp] at h
    have htext : p.text = ['\n'] := h
    rw [htext]
    exact .space (.inr (.inr (.inr rfl))) hgap

end Piece

/-! ## Tokens and errors with their places -/

namespace Scan

open Piece

/-- A token or an error, and the stretch of the source that it is: it goes from the offset `start`
up to the offset `stop`, exclusively. -/
structure Item where
  what : Token ⊕ ScanError
  start : Nat
  stop : Nat

namespace Item

/-- The token that an item is. -/
def token? (i : Item) : Option Token :=
  i.what.getLeft?

/-- The error that an item is. -/
def error? (i : Item) : Option ScanError :=
  i.what.getRight?

/-- The line that an item carries. -/
def line (i : Item) : Nat :=
  i.what.elim Token.line ScanError.line

/-- An item lies in a text: it is a stretch of a row, not empty, on the line with this number; and
if it is a token, then the stretch is its lexeme, if it is an error, then the error is about it. -/
structure Lies (cs : List Char) (i : Item) : Prop where
  nonempty : i.start < i.stop
  inside : i.stop ≤ cs.length
  line : i.line = 1 + (cs.take i.start).count '\n'
  inRow : '\n' ∉ cs.extract i.start i.stop
  token : ∀ t ∈ i.token?, t.kind ≠ .eof ∧ t.lexeme.toList = cs.extract i.start i.stop
  error : ∀ e ∈ i.error?, e.cause.Describes (cs.extract i.start i.stop)

end Item

/-- The stretches that are left of a text of some length: from `start` to the first item, between
every two items, and behind the last one. -/
def gaps (length : Nat) : Nat → List Item → List (Nat × Nat)
  | start, [] => [(start, length)]
  | start, i :: is => (start, i.start) :: gaps length i.stop is

/-- The tokens and errors of a scan are stretches of a text, in order, and nothing but layout is
left of the text. An end token stands behind the others. -/
structure Tiles (scan : Scan) (cs : List Char) (items : List Item) : Prop where
  tokens : scan.tokens = items.filterMap Item.token? ++ [⟨.eof, "", 1 + cs.count '\n'⟩]
  errors : scan.errors = items.filterMap Item.error?
  lies : ∀ i ∈ items, i.Lies cs
  ordered : items.IsChain fun a b => a.stop ≤ b.start
  layout : ∀ gap ∈ gaps cs.length 0 items, Text.Layout (cs.drop gap.2) (cs.extract gap.1 gap.2)

/-! ## The items of a list of pieces -/

/-- The item that a piece is, at an offset and on a line. -/
def item? (offset line : Nat) (p : Piece) : Option Item :=
  match p.finding with
  | .token kind => some ⟨.inl ⟨kind, String.ofList p.text, line⟩, offset, offset + p.text.length⟩
  | .error cause => some ⟨.inr ⟨cause, line⟩, offset, offset + p.text.length⟩
  | _ => none

/-- The items of some pieces, of which the first one stands at an offset and on a line. -/
def items : Nat → Nat → List Piece → List Item
  | _, _, [] => []
  | offset, line, p :: ps =>
    (item? offset line p).toList ++ items (offset + p.text.length) (nextLine line p) ps

/-- A piece is an item that takes all of its text, or it is left out. -/
theorem item?_cases (offset line : Nat) (p : Piece) :
    (∃ i, item? offset line p = some i ∧ i.start = offset ∧ i.stop = offset + p.text.length) ∨
      (item? offset line p = none ∧ (p.finding = .skip ∨ p.finding = .lineFeed)) := by
  unfold item?
  cases p.finding with
  | skip => exact .inr ⟨rfl, .inl rfl⟩
  | lineFeed => exact .inr ⟨rfl, .inr rfl⟩
  | token kind => exact .inl ⟨_, rfl, rfl, rfl⟩
  | error cause => exact .inl ⟨_, rfl, rfl, rfl⟩

theorem filterMap_items {α : Type} {f : Item → Option α} {g : Nat → Piece → Option α}
    (hfg : ∀ offset line p, (item? offset line p).bind f = g line p) (offset line : Nat)
    (ps : List Piece) : (items offset line ps).filterMap f = collect g line ps := by
  induction ps generalizing offset line with
  | nil => rfl
  | cons p ps ih =>
    have hhead : (item? offset line p).toList.filterMap f = (g line p).toList := by
      rw [← hfg offset line p]
      cases item? offset line p with
      | none => rfl
      | some i => cases hf : f i <;> simp [hf]
    rw [items, collect, List.filterMap_append, ih, hhead]

theorem token?_of_item? (offset line : Nat) (p : Piece) :
    (item? offset line p).bind Item.token? = token? line p := by
  unfold item? token?
  cases p.finding <;> rfl

theorem error?_of_item? (offset line : Nat) (p : Piece) :
    (item? offset line p).bind Item.error? = error? line p := by
  unfold item? error?
  cases p.finding <;> rfl

/-! ### Order -/

theorem le_start_of_mem_items {offset line : Nat} {ps : List Piece} {i : Item}
    (h : i ∈ items offset line ps) : offset ≤ i.start := by
  induction ps generalizing offset line with
  | nil => cases h
  | cons p ps ih =>
    rcases List.mem_append.mp h with hhead | hrest
    · rcases item?_cases offset line p with ⟨j, hj, hstart, -⟩ | ⟨hnone, -⟩
      · rw [hj] at hhead
        obtain rfl := List.mem_singleton.mp hhead
        exact Nat.le_of_eq hstart.symm
      · rw [hnone] at hhead
        cases hhead
    · have hle := ih hrest
      omega

theorem isChain_items (offset line : Nat) (ps : List Piece) :
    (items offset line ps).IsChain fun a b => a.stop ≤ b.start := by
  induction ps generalizing offset line with
  | nil => exact .nil
  | cons p ps ih =>
    have hrest := ih (offset + p.text.length) (nextLine line p)
    rw [items]
    rcases item?_cases offset line p with ⟨i, hi, -, hstop⟩ | ⟨hnone, -⟩
    · rw [hi]
      refine List.isChain_cons.mpr ⟨fun j hj => ?_, hrest⟩
      rw [hstop]
      exact le_start_of_mem_items (List.mem_of_mem_head? hj)
    · rw [hnone]
      exact hrest

/-! ### Places -/

/-- The text in the middle of three, by its offsets. -/
theorem extract_middle (before text behind : List Char) :
    (before ++ (text ++ behind)).extract before.length (before.length + text.length) = text := by
  simp [List.extract]

/-- A stretch of a text in two parts. -/
theorem extract_split (cs : List Char) {a b c : Nat} (hab : a ≤ b) (hbc : b ≤ c) :
    cs.extract a c = cs.extract a b ++ cs.extract b c := by
  have hlength : c - a = (b - a) + (c - b) := by omega
  have hdrop : (cs.drop a).drop (b - a) = cs.drop b := by
    rw [List.drop_drop]
    congr 1
    omega
  simp only [List.extract]
  rw [hlength, List.take_add, hdrop]

theorem lies_of_item? {before behind : List Char} {p : Piece} (h : p.Fits behind) {i : Item}
    (hi : item? before.length (1 + before.count '\n') p = some i) :
    i.Lies (before ++ (p.text ++ behind)) := by
  have hmiddle := extract_middle before p.text behind
  have hbefore : (before ++ (p.text ++ behind)).take before.length = before :=
    List.take_left
  have hinside : before.length + p.text.length ≤ (before ++ (p.text ++ behind)).length := by
    rw [List.length_append, List.length_append]
    omega
  unfold Fits at h
  unfold item? at hi
  cases hp : p.finding with
  | skip => simp [hp] at hi
  | lineFeed => simp [hp] at hi
  | token kind =>
    rw [hp] at h hi
    obtain rfl := Option.some.inj hi
    obtain ⟨hkind, hne, hrow⟩ := h
    have hpos := List.length_pos_iff.mpr hne
    constructor
    case nonempty => exact Nat.lt_add_of_pos_right hpos
    case inside => exact hinside
    case line => rw [hbefore]; rfl
    case inRow => rwa [hmiddle]
    case token =>
      intro t ht
      obtain rfl := Option.some.inj ht
      rw [hmiddle]
      exact ⟨hkind, String.toList_ofList⟩
    case error =>
      intro e he
      cases he
  | error cause =>
    rw [hp] at h hi
    obtain rfl := Option.some.inj hi
    obtain ⟨hcause, hne, hrow⟩ := h
    have hpos := List.length_pos_iff.mpr hne
    constructor
    case nonempty => exact Nat.lt_add_of_pos_right hpos
    case inside => exact hinside
    case line => rw [hbefore]; rfl
    case inRow => rwa [hmiddle]
    case token =>
      intro t ht
      cases ht
    case error =>
      intro e he
      obtain rfl := Option.some.inj he
      rw [hmiddle]
      exact hcause

/-- **The items lie in the text** if the pieces in front of them have been counted. -/
theorem lies_of_mem_items {ps : List Piece} (h : AllFit ps) (before : List Char) :
    ∀ i ∈ items before.length (1 + before.count '\n') ps,
      i.Lies (before ++ ps.flatMap Piece.text) := by
  induction ps generalizing before with
  | nil => exact List.forall_mem_nil _
  | cons p ps ih =>
    obtain ⟨hfits, hrest⟩ := h
    -- What has been read goes up by the text of the piece, and so do its length and its line feeds.
    have hline : nextLine (1 + before.count '\n') p = 1 + (before ++ p.text).count '\n' := by
      rw [hfits.nextLine_eq, List.count_append, Nat.add_assoc]
    have hmore := ih hrest (before ++ p.text)
    rw [List.length_append, ← hline, List.append_assoc] at hmore
    rw [items, List.flatMap_cons]
    refine List.forall_mem_append.mpr ⟨fun i hi => ?_, hmore⟩
    exact lies_of_item? hfits (Option.mem_toList.mp hi)

/-- A piece that is left out is the beginning of what is left in front of the next item. -/
theorem layout_of_left_out {cs before behind : List Char} {p : Piece}
    (hcs : cs = before ++ (p.text ++ behind)) (hfits : p.Fits behind)
    (hp : p.finding = .skip ∨ p.finding = .lineFeed) {stop : Nat}
    (hle : before.length + p.text.length ≤ stop)
    (h : Text.Layout (cs.drop stop) (cs.extract (before.length + p.text.length) stop)) :
    Text.Layout (cs.drop stop) (cs.extract before.length stop) := by
  have hbehind : cs.drop (before.length + p.text.length) = behind := by
    rw [hcs, ← List.append_assoc, ← List.length_append, List.drop_left]
  have hrejoin : cs.extract (before.length + p.text.length) stop ++ cs.drop stop = behind := by
    rw [← Nat.add_sub_cancel' hle, ← List.drop_drop, Nat.add_sub_cancel' hle, List.extract, hbehind]
    exact List.take_append_drop _ _
  have hmiddle : cs.extract before.length (before.length + p.text.length) = p.text := by
    rw [hcs, extract_middle]
  rw [extract_split cs (Nat.le_add_right _ p.text.length) hle, hmiddle]
  rw [← hrejoin] at hfits
  exact hfits.layout hp h

/-- **Nothing but layout is left** between the items. -/
theorem layout_gaps {ps : List Piece} (h : AllFit ps) {cs : List Char} (before : List Char)
    (hcs : cs = before ++ ps.flatMap Piece.text) (line : Nat) :
    ∀ gap ∈ gaps cs.length before.length (items before.length line ps),
      Text.Layout (cs.drop gap.2) (cs.extract gap.1 gap.2) := by
  induction ps generalizing before line with
  | nil =>
    have hlength : cs.length = before.length := by simp [hcs]
    refine List.forall_mem_singleton.mpr ?_
    rw [hlength, List.extract, Nat.sub_self, List.take_zero]
    exact .nil
  | cons p ps ih =>
    obtain ⟨hfits, hrest⟩ := h
    rw [List.flatMap_cons] at hcs
    have hmore := ih hrest (before ++ p.text) (by rw [hcs, List.append_assoc]) (nextLine line p)
    rw [List.length_append] at hmore
    rw [items]
    rcases item?_cases before.length line p with ⟨i, hi, hstart, hstop⟩ | ⟨hnone, hp⟩
    · -- Nothing is left in front of an item that stands where the text goes on.
      rw [hi]
      refine List.forall_mem_cons.mpr ⟨?_, ?_⟩
      · rw [hstart, List.extract, Nat.sub_self, List.take_zero]
        exact .nil
      · rw [hstop]
        exact hmore
    · rw [hnone, Option.toList_none, List.nil_append]
      cases hitems : items (before.length + p.text.length) (nextLine line p) ps with
      | nil =>
        have hle : before.length + p.text.length ≤ cs.length := by
          rw [hcs, List.length_append, List.length_append]
          omega
        rw [hitems] at hmore
        have hlast := hmore _ (List.mem_singleton.mpr rfl)
        exact List.forall_mem_singleton.mpr (layout_of_left_out hcs hfits hp hle hlast)
      | cons i is =>
        have hle : before.length + p.text.length ≤ i.start := by
          apply le_start_of_mem_items
          rw [hitems]
          exact List.mem_cons_self
        rw [hitems] at hmore
        obtain ⟨hfirst, hothers⟩ := List.forall_mem_cons.mp hmore
        exact List.forall_mem_cons.mpr ⟨layout_of_left_out hcs hfits hp hle hfirst, hothers⟩

end Scan

/-- **Tokens and errors tile the source.** They are stretches of the source that are not empty, hold
no line feed and do not overlap, in order. A token is the text of its stretch, an error is about it,
and both carry the line on which it starts: one more than the line feeds in front. What is left in
front, between and behind is layout: blanks, line feeds, and comments up to the end of their row.
The only end token comes last, on the last line. -/
theorem tokens_tile (source : String) :
    ∃ items, (Scan.ofSource source).Tiles source.toList items := by
  have hfit := Piece.allFit_pieces source.toList
  have htext := Piece.flatMap_text_pieces source.toList
  have hlies := Scan.lies_of_mem_items hfit []
  have hlayout := Scan.layout_gaps hfit [] htext.symm 1
  rw [htext] at hlies
  refine ⟨Scan.items 0 1 (Piece.pieces source.toList), ?_, ?_, hlies, ?_, hlayout⟩
  · show Scan.proper source.toList ++ [Scan.endToken source.toList] = _
    rw [Scan.filterMap_items Scan.token?_of_item?, Scan.endToken, Scan.foldl_nextLine_pieces]
    rfl
  · exact (Scan.filterMap_items Scan.error?_of_item? 0 1 _).symm
  · exact Scan.isChain_items 0 1 _

end Sugod
