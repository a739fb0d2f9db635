/-!
# Numerals

Natural numbers as lists of decimal digits. `numeral` writes a number without leading zeros,
`numeralValue` is the positional value of a list of digits, and the two fit together:
`numeralValue (numeral n) = n`.
-/

set_option autoImplicit false

namespace Sugod.Decimal

/-- The character of one decimal digit. -/
def digit (d : Nat) : Char :=
  Char.ofNat (48 + d)

/-- The number that one digit character stands for. -/
def digitValue (c : Char) : Nat :=
  c.toNat - 48

/-- The decimal digits of a number, the most significant first, without leading zeros. -/
def numeral (n : Nat) : List Char :=
  if n < 10 then [digit n] else numeral (n / 10) ++ [digit (n % 10)]

/-- The positional value of a list of digits. -/
def numeralValue (ds : List Char) : Nat :=
  ds.foldl (fun n c => 10 * n + digitValue c) 0

/-- An integer as digits, with a minus sign in front if it is negative. -/
def signedNumeral (i : Int) : List Char :=
  if i < 0 then '-' :: numeral i.natAbs else numeral i.natAbs

/-- The text of a natural number. -/
def natText (n : Nat) : String :=
  String.ofList (numeral n)

theorem toNat_digit {d : Nat} (h : d < 10) : (digit d).toNat = 48 + d := by
  have hv : (48 + d).isValidChar := Or.inl (by omega)
  unfold digit
  rw [Char.ofNat, dif_pos hv]
  rfl

theorem digitValue_digit {d : Nat} (h : d < 10) : digitValue (digit d) = d := by
  rw [digitValue, toNat_digit h]
  omega

theorem isDigit_digit {d : Nat} (h : d < 10) : (digit d).isDigit = true := by
  have hn := toNat_digit h
  simp only [Char.isDigit, Bool.and_eq_true, decide_eq_true_eq, ge_iff_le, UInt32.le_iff_toNat_le]
  have e : (digit d).val.toNat = 48 + d := hn
  constructor
  · show 48 ≤ _
    omega
  · show _ ≤ 57
    omega

/-- Writing down the last digit of a longer numeral. -/
theorem numeral_of_ten_le {n : Nat} (h : 10 ≤ n) :
    numeral n = numeral (n / 10) ++ [digit (n % 10)] := by
  rw [numeral, if_neg (by omega)]

/-- A numeral holds digits only. -/
theorem isDigit_of_mem_numeral {n : Nat} {c : Char} (h : c ∈ numeral n) : c.isDigit = true := by
  induction n using Nat.strongRecOn with
  | _ n ih =>
    by_cases hn : n < 10
    · rw [numeral, if_pos hn, List.mem_singleton] at h
      exact h ▸ isDigit_digit hn
    · rw [numeral_of_ten_le (by omega), List.mem_append, List.mem_singleton] at h
      rcases h with h | rfl
      · exact ih (n / 10) (by omega) h
      · exact isDigit_digit (by omega)

theorem numeral_ne_nil (n : Nat) : numeral n ≠ [] := by
  rw [numeral]
  split <;> simp

/-- The value of the digits of a number is the number. -/
theorem numeralValue_numeral (n : Nat) : numeralValue (numeral n) = n := by
  induction n using Nat.strongRecOn with
  | _ n ih =>
    by_cases hn : n < 10
    · rw [numeral, if_pos hn]
      simp [numeralValue, digitValue_digit hn]
    · rw [numeral_of_ten_le (by omega)]
      have step := ih (n / 10) (by omega)
      simp only [numeralValue] at step
      simp only [numeralValue, List.foldl_append, step, List.foldl_cons, List.foldl_nil]
      rw [digitValue_digit (by omega)]
      omega

end Sugod.Decimal
