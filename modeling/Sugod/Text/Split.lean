/-!
# Cutting text at a separator

`split sep xs` cuts a list at every `sep` and drops the separators. The parts are the rows of a
source (cut at line feeds), the fields of an input line (cut at commas) and the rows of a stream
of bytes. There is always at least one part, no part holds the separator, and putting the
separator back between the parts gives the list again.
-/

set_option autoImplicit false

namespace Sugod.Text

variable {α : Type} [DecidableEq α]

/-- Puts one more item in front of the first part. -/
def grow (c : α) : List (List α) → List (List α)
  | [] => [[c]]
  | part :: parts => (c :: part) :: parts

/-- Cuts a list at every separator; the separators are dropped. -/
def split (sep : α) : List α → List (List α)
  | [] => [[]]
  | c :: cs => if c = sep then [] :: split sep cs else grow c (split sep cs)

/-- Parts written one after another with a separator between neighbours. -/
def join (sep : α) : List (List α) → List α
  | [] => []
  | [part] => part
  | part :: next :: parts => part ++ sep :: join sep (next :: parts)

theorem split_ne_nil (sep : α) (cs : List α) : split sep cs ≠ [] := by
  cases cs with
  | nil => simp [split]
  | cons c cs =>
    by_cases h : c = sep
    · simp [split, h]
    · cases hs : split sep cs <;> simp [split, h, hs, grow]

/-- A list splits at a separator into the parts before it and the parts after it. -/
theorem split_append (sep : α) (a b : List α) :
    split sep (a ++ sep :: b) = split sep a ++ split sep b := by
  induction a with
  | nil => simp [split]
  | cons c a ih =>
    by_cases h : c = sep
    · simp [split, h, ih]
    · cases ha : split sep a with
      | nil => exact absurd ha (split_ne_nil sep a)
      | cons part parts => simp [split, h, ih, ha, grow]

/-- A list without the separator is one part. -/
theorem split_of_not_mem {sep : α} {cs : List α} (h : sep ∉ cs) : split sep cs = [cs] := by
  induction cs with
  | nil => rfl
  | cons c cs ih =>
    simp only [List.mem_cons, not_or] at h
    simp [split, Ne.symm h.1, ih h.2, grow]

/-- No part holds the separator. -/
theorem not_mem_of_mem_split {sep : α} {cs part : List α} (h : part ∈ split sep cs) :
    sep ∉ part := by
  induction cs generalizing part with
  | nil => simp_all [split]
  | cons c cs ih =>
    by_cases hc : c = sep
    · simp only [split, hc, if_true, List.mem_cons] at h
      rcases h with rfl | h
      · simp
      · exact ih h
    · cases hs : split sep cs with
      | nil => exact absurd hs (split_ne_nil sep cs)
      | cons p ps =>
        simp only [split, hc, if_false, hs, grow, List.mem_cons] at h
        rcases h with rfl | h
        · have free : sep ∉ p := ih (by simp [hs])
          simp [free, Ne.symm hc]
        · exact ih (by simp [hs, h])

/-- Joining the parts of a list gives the list. -/
theorem join_split (sep : α) (cs : List α) : join sep (split sep cs) = cs := by
  induction cs with
  | nil => rfl
  | cons c cs ih =>
    cases hs : split sep cs with
    | nil => exact absurd hs (split_ne_nil sep cs)
    | cons p ps =>
      rw [hs] at ih
      by_cases hc : c = sep
      · simp [split, hc, hs, join, ih]
      · cases ps with
        | nil => simpa [split, hc, hs, grow, join] using ih
        | cons q qs => simpa [split, hc, hs, grow, join] using ih

/-- Parts without the separator can be joined and split again. -/
theorem split_join {sep : α} {parts : List (List α)} (hne : parts ≠ [])
    (h : ∀ part ∈ parts, sep ∉ part) : split sep (join sep parts) = parts := by
  induction parts with
  | nil => exact absurd rfl hne
  | cons part parts ih =>
    have hpart : sep ∉ part := h part (by simp)
    cases parts with
    | nil => exact split_of_not_mem hpart
    | cons next rest =>
      show split sep (part ++ sep :: join sep (next :: rest)) = _
      rw [split_append, split_of_not_mem hpart, ih (by simp) fun p hp => h p (by simp [hp])]
      rfl

/-- There is one part more than there are separators. -/
theorem length_split (sep : α) (cs : List α) :
    (split sep cs).length = cs.count sep + 1 := by
  induction cs with
  | nil => rfl
  | cons c cs ih =>
    by_cases hc : c = sep
    · simp [split, hc, ih]
    · cases hs : split sep cs with
      | nil => exact absurd hs (split_ne_nil sep cs)
      | cons p ps =>
        rw [hs] at ih
        simpa [split, hc, hs, grow] using ih

end Sugod.Text
