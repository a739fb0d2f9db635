import Mathlib
import Sugod.Decimal.Shortest
import Sugod.Decimal.Nearest

/-!
# The shortest decimal reads back

A decimal is written for a double, and a double is read from a decimal. The writer picks a decimal
from the interval of numbers that round to the double; the reader rounds. `RoundsTo m s num den`
says that the quotient `num / den` is in the interval of `m · 2^(s - 1074)`.

* A finite double is a sign, a mantissa and an exponent, and is put together from them
  (`Binary.exists_encodes`).
* Whatever is in the interval of a double is read as that double (`nearestDecimal_of_roundsTo`).
* The shortest decimal is in the interval (`shortest_roundsTo`).

The reader finds the exponent of a double from the size of the quotient. There is one case in which
that is not the exponent that was written. Just below a power of two the quotient has a smaller
exponent; it is rounded up to the power, and the carry makes the encodings equal.
-/

set_option autoImplicit false

namespace Sugod.Decimal

/-! ## Finite doubles -/

namespace Binary

open Float.Model Float.Model.UnpackedFloat

/-- The doubles that are no numbers have all bits of the exponent set. -/
theorem exponent_of_isFinite {x : Float} (h : x.isFinite = true) :
    x.toBits.toNat / 2 ^ 52 % 2 ^ 11 ≠ 2047 := by
  intro hword
  let word : BitVec Format.binary64.numBits := x.toBits.toBitVec
  have hones : unpackExponent word = -1#11 := by
    apply BitVec.eq_of_toNat_eq
    rw [unpackExponent_def, BitVec.extractLsb'_toNat, Nat.shiftRight_eq_div_pow]
    exact hword
  have hfinite : (UnpackedFloat.unpack .binary64 word).isFinite = true := h
  unfold UnpackedFloat.unpack at hfinite
  rw [if_pos hones] at hfinite
  split at hfinite <;> cases hfinite

/-- The mantissa and the exponent of a finite double. -/
structure IsMagnitude (m s : Nat) : Prop where
  mantissa : m < 2 ^ 53
  exponent : s ≤ 2045
  normal : s = 0 ∨ 2 ^ 52 ≤ m

/-- What `ofFloat` makes of a finite double. -/
structure Encodes (x : Float) (negative : Bool) (m s : Nat) : Prop where
  ofFloat : ofFloat x = .finite negative m s
  isMagnitude : IsMagnitude m s
  floatOfWord : floatOfWord negative (s * 2 ^ 52 + m) = x

/-- **A finite double is a sign, a mantissa and an exponent**, and is put together from them. -/
theorem exists_encodes {x : Float} (h : x.isFinite = true) :
    ∃ negative m s, Encodes x negative m s := by
  have hones := exponent_of_isFinite h
  have hlt : x.toBits.toNat < 2 ^ 64 := x.toBits.toNat_lt
  have hbits : Float.ofBits x.toBits.toNat.toUInt64 = x := by
    rw [Nat.toUInt64_eq, UInt64.ofNat_toNat, Float.ofBits_toBits]
  generalize hword : x.toBits.toNat = word at hones hlt hbits
  have hsum : ∀ m s, s * 2 ^ 52 + m = word % 2 ^ 63 →
      floatOfWord (decide (Nat.pow 2 63 ≤ word)) (s * 2 ^ 52 + m) = x := by
    intro m s hmagnitude
    have hwhole : (if decide (Nat.pow 2 63 ≤ word) = true then Nat.pow 2 63 else 0) +
        (s * 2 ^ 52 + m) = word := by
      by_cases hnegative : Nat.pow 2 63 ≤ word
      · rw [if_pos (decide_eq_true hnegative), hmagnitude]
        change 2 ^ 63 ≤ word at hnegative
        show 2 ^ 63 + _ = word
        omega
      · rw [if_neg (by simpa using hnegative), hmagnitude]
        change ¬ 2 ^ 63 ≤ word at hnegative
        omega
    rw [floatOfWord, hwhole, hbits]
  by_cases hzero : word / 2 ^ 52 % 2 ^ 11 = 0
  · refine ⟨decide (Nat.pow 2 63 ≤ word), word % 2 ^ 52, 0, ?_, ⟨by omega, by omega, .inl rfl⟩,
      hsum _ _ (by omega)⟩
    rw [Binary.ofFloat, hword, ofWord]
    exact (if_neg hones).trans (if_pos hzero)
  · refine ⟨decide (Nat.pow 2 63 ≤ word), 2 ^ 52 + word % 2 ^ 52, word / 2 ^ 52 % 2 ^ 11 - 1, ?_,
      ⟨by omega, by omega, .inr (by omega)⟩, hsum _ _ (by omega)⟩
    rw [Binary.ofFloat, hword, ofWord]
    exact (if_neg hones).trans (if_neg hzero)

end Binary

open Binary (IsMagnitude)

variable {m s num den : Nat}

/-! ## Rounding to a whole number -/

/-- A quotient that is nearer to `m` than to its neighbours is rounded to `m`, and so is one halfway
to a neighbour if `m` is even. -/
theorem roundEven_eq (hden : 0 < den) (hlow : 2 * m * den ≤ 2 * num + den)
    (hhigh : 2 * num ≤ 2 * m * den + den)
    (hodd : m % 2 = 1 → 2 * m * den < 2 * num + den ∧ 2 * num < 2 * m * den + den) :
    roundEven num den = m := by
  have hsplit : num / den * den + num % den = num := by
    rw [Nat.mul_comm]
    exact Nat.div_add_mod num den
  have hrest : num % den < den := Nat.mod_lt _ hden
  unfold roundEven
  generalize num / den = q at hsplit ⊢
  generalize num % den = r at hsplit hrest ⊢
  subst hsplit
  have hle : q ≤ m := by
    by_contra hlt
    have hmul : (m + 1) * den ≤ q * den := Nat.mul_le_mul_right den (by omega)
    linarith
  have hge : m ≤ q + 1 := by
    by_contra hlt
    have hmul : (q + 2) * den ≤ m * den := Nat.mul_le_mul_right den (by omega)
    linarith
  -- `q` is the quotient rounded down, so it is a question of rounding down or up.
  rcases (by omega : m = q ∨ m = q + 1) with rfl | rfl
  · have hhalf : 2 * r ≤ den := by linarith
    rw [if_pos]
    rcases Nat.lt_or_eq_of_le hhalf with hlt | heq
    · exact .inl hlt
    · refine .inr ⟨heq, ?_⟩
      by_contra hnot
      have hstrict := (hodd (by omega)).2
      linarith
  · have hhalf : den ≤ 2 * r := by linarith
    rw [if_neg]
    rintro (hlt | ⟨heq, heven⟩)
    · omega
    · have hstrict := (hodd (by omega)).1
      linarith

/-! ## The interval of a double -/

/-- How many of the smallest double make up one. -/
def unitsInOne : Nat :=
  Nat.pow 2 1074

theorem unitsInOne_pos : 0 < unitsInOne := by decide +kernel

theorem unitsInOne_eq_pow {e : Nat} (h : e = 1074) : unitsInOne = 2 ^ e := by
  rw [h]
  decide +kernel

/-- The quotient `num / den` is one of the numbers that round to `m · 2^(s - 1074)`. The interval is
measured in quarters of `2^(s - 1074)` and has no ends if `m` is odd. -/
structure RoundsTo (m s num den : Nat) : Prop where
  low : (interval m s).low * (2 ^ s * den) ≤ 4 * (num * unitsInOne)
  high : 4 * (num * unitsInOne) ≤ (4 * m + 2) * (2 ^ s * den)
  odd : m % 2 = 1 → (interval m s).low * (2 ^ s * den) < 4 * (num * unitsInOne) ∧
    4 * (num * unitsInOne) < (4 * m + 2) * (2 ^ s * den)

/-- The lower end is half a unit below the value, or nearer. -/
theorem le_low (m s : Nat) : 4 * m ≤ (interval m s).low + 2 := by
  show 4 * m ≤ (if m = Nat.pow 2 52 ∧ 0 < s then 4 * m - 1 else 4 * m - 2) + 2
  split <;> omega

theorem low_le (m s : Nat) : (interval m s).low ≤ 4 * m := by
  show (if m = Nat.pow 2 52 ∧ 0 < s then 4 * m - 1 else 4 * m - 2) ≤ 4 * m
  split <;> omega

/-- The exact value rounds to itself. -/
theorem roundsTo_exact (hden : 0 < den) (h : num * unitsInOne = m * (2 ^ s * den)) :
    RoundsTo m s num den := by
  have hunit : 0 < 2 ^ s * den := Nat.mul_pos (Nat.two_pow_pos s) hden
  have hlow : (interval m s).low * (2 ^ s * den) ≤ 4 * m * (2 ^ s * den) :=
    Nat.mul_le_mul_right _ (low_le m s)
  refine ⟨?_, ?_, fun hodd => ⟨?_, ?_⟩⟩
  · linarith
  · linarith
  · have hlt : (interval m s).low < 4 * m := by
      show (if m = Nat.pow 2 52 ∧ 0 < s then 4 * m - 1 else 4 * m - 2) < 4 * m
      split <;> omega
    have hmul := Nat.mul_lt_mul_of_pos_right hlt hunit
    linarith
  · linarith

/-- The numerator of a decimal. -/
def Scaled.numerator (d : Scaled) : Nat :=
  d.c * (if 0 ≤ d.k then Nat.pow 10 d.k.natAbs else 1)

/-- The denominator of a decimal. -/
def Scaled.denominator (d : Scaled) : Nat :=
  if 0 ≤ d.k then 1 else Nat.pow 10 d.k.natAbs

/-- The points that a grid has in the interval are the decimals that round to the double. -/
theorem holds_iff {c : Nat} {k : Int} : (interval m s).holds (grid s k) c = true ↔
    RoundsTo m s (Scaled.numerator ⟨c, k⟩) (Scaled.denominator ⟨c, k⟩) := by
  have hpow : Nat.pow 2 1076 = 4 * unitsInOne := by decide +kernel
  have hclosed : (interval m s).closed = decide (m % 2 = 0) := rfl
  have hhigh : (interval m s).high = 4 * m + 2 := rfl
  unfold Interval.holds grid Scaled.numerator Scaled.denominator
  rw [hpow]
  simp only
  generalize (if 0 ≤ k then Nat.pow 10 k.natAbs else 1) = a
  generalize (if 0 ≤ k then 1 else Nat.pow 10 k.natAbs) = den
  have hstep : c * (4 * unitsInOne * a) = 4 * (c * a * unitsInOne) := by ring
  rw [hclosed, hhigh, hstep, Nat.pow_eq]
  by_cases heven : m % 2 = 0
  · rw [if_pos (decide_eq_true heven)]
    simp only [Bool.and_eq_true, decide_eq_true_eq]
    exact ⟨fun h => ⟨h.1, h.2, fun hodd => absurd heven (by omega)⟩, fun h => ⟨h.low, h.high⟩⟩
  · rw [if_neg (by simpa using heven)]
    simp only [Bool.and_eq_true, decide_eq_true_eq]
    exact ⟨fun h => ⟨h.1.le, h.2.le, fun _ => h⟩, fun h => h.odd (by omega)⟩

/-! ## Reading -/

theorem log2_div_le {k : Nat} (hhigh : num < 2 ^ (k + 1) * den) (hden : 0 < den) :
    (num / den).log2 ≤ k := by
  have hlt : num / den < 2 ^ (k + 1) := (Nat.div_lt_iff_lt_mul hden).mpr hhigh
  by_cases hzero : num / den = 0
  · simp [hzero]
  · exact Nat.lt_succ_iff.mp ((Nat.log2_lt hzero).mpr hlt)

theorem log2_div_eq {k : Nat} (hlow : 2 ^ k * den ≤ num) (hhigh : num < 2 ^ (k + 1) * den)
    (hden : 0 < den) : (num / den).log2 = k := by
  have hle : 2 ^ k ≤ num / den := (Nat.le_div_iff_mul_le hden).mpr hlow
  have hpos : num / den ≠ 0 := by
    have := Nat.two_pow_pos k
    omega
  exact Nat.le_antisymm (log2_div_le hhigh hden) ((Nat.le_log2 hpos).mpr hle)

/-- The encoding that the reader computes from the exponent it finds. -/
theorem nearest_eq {t r : Nat} (hlog : (num * unitsInOne / den).log2 - 52 = t)
    (hround : roundEven (num * unitsInOne) (den * 2 ^ t) = r)
    (hfit : t * 2 ^ 52 + r ≤ 2047 * 2 ^ 52) : nearest num den = t * 2 ^ 52 + r := by
  have hword : Binary.magnitudeWord r t = t * 2 ^ 52 + r := Nat.min_eq_left hfit
  rw [← hword, ← hround, ← hlog]
  unfold nearest unitsInOne
  rfl

theorem roundEven_of_roundsTo (hden : 0 < den) (h : RoundsTo m s num den) :
    roundEven (num * unitsInOne) (den * 2 ^ s) = m := by
  have hlow : 4 * m * (2 ^ s * den) ≤ ((interval m s).low + 2) * (2 ^ s * den) :=
    Nat.mul_le_mul_right _ (le_low m s)
  obtain ⟨hl, hh, hodd⟩ := h
  rw [Nat.mul_comm den]
  refine roundEven_eq (Nat.mul_pos (Nat.two_pow_pos s) hden) ?_ ?_ fun hm => ⟨?_, ?_⟩
  · linarith
  · linarith
  · have hstrict := (hodd hm).1
    linarith
  · have hstrict := (hodd hm).2
    linarith

/-- The quotient is below the next power of two. -/
theorem RoundsTo.lt_double {k : Nat} (h : RoundsTo m s num den) (hm : m < 2 ^ k) (hden : 0 < den) :
    num * unitsInOne < 2 ^ (k + s) * den := by
  have hunit : 0 < 2 ^ s * den := Nat.mul_pos (Nat.two_pow_pos s) hden
  have hmul : (m + 1) * (2 ^ s * den) ≤ 2 ^ k * (2 ^ s * den) := Nat.mul_le_mul_right _ hm
  have hhigh := h.high
  rw [Nat.pow_add, Nat.mul_assoc]
  linarith

/-- Only a power of two has numbers below the power in its interval. -/
theorem RoundsTo.eq_power (h : RoundsTo m s num den) (hnormal : 2 ^ 52 ≤ m) (hden : 0 < den)
    (hbelow : num * unitsInOne < 2 ^ 52 * (2 ^ s * den)) : m = 2 ^ 52 := by
  have hunit : 0 < 2 ^ s * den := Nat.mul_pos (Nat.two_pow_pos s) hden
  have hlow := h.low
  by_contra hne
  have hle : 4 * (2 ^ 52 + 1) ≤ (interval m s).low + 2 := by
    have := le_low m s
    omega
  have hmul := Nat.mul_le_mul_right (2 ^ s * den) hle
  linarith

/-- Below a power of two the exponent is found one too small, and rounding carries. -/
theorem nearest_below_power {t : Nat} (h : RoundsTo (2 ^ 52) (t + 1) num den) (hden : 0 < den)
    (hbelow : num * unitsInOne < 2 ^ 52 * (2 ^ (t + 1) * den)) (ht : t + 1 ≤ 2045) :
    nearest num den = (t + 1) * 2 ^ 52 + 2 ^ 52 := by
  have hunit : 2 ^ (t + 1) * den = 2 * (2 ^ t * den) := by ring
  have hpos : 0 < 2 ^ t * den := Nat.mul_pos (Nat.two_pow_pos t) hden
  have hlow : 2 ^ 54 ≤ (interval (2 ^ 52) (t + 1)).low + 1 := by
    show 2 ^ 54 ≤ 4 * 2 ^ 52 - 1 + 1
    norm_num
  have hmul := Nat.mul_le_mul_right (2 ^ (t + 1) * den) hlow
  have hlower := h.low
  rw [hunit] at hmul hlower hbelow
  have hcarry : roundEven (num * unitsInOne) (den * 2 ^ t) = 2 ^ 53 := by
    rw [Nat.mul_comm den]
    refine roundEven_eq hpos ?_ ?_ (fun hodd => absurd hodd (by decide))
    · linarith
    · linarith
  have hlog : (num * unitsInOne / den).log2 = 52 + t := by
    refine log2_div_eq ?_ ?_ hden
    · have hpow : 2 ^ (52 + t) * den = 2 ^ 52 * (2 ^ t * den) := by ring
      rw [hpow]
      linarith
    · have hpow : 2 ^ (52 + t + 1) * den = 2 ^ 52 * (2 * (2 ^ t * den)) := by ring
      rw [hpow]
      exact hbelow
  rw [nearest_eq (t := t) (by omega) hcarry (by omega)]
  omega

/-- **What is in the interval of a double is read as the double.** -/
theorem nearest_of_roundsTo (hmag : IsMagnitude m s) (hden : 0 < den) (h : RoundsTo m s num den) :
    nearest num den = s * 2 ^ 52 + m := by
  have hround := roundEven_of_roundsTo hden h
  obtain ⟨hmantissa, hexponent, hnormal⟩ := hmag
  have hfit : s * 2 ^ 52 + m ≤ 2047 * 2 ^ 52 := by omega
  by_cases hpower : 2 ^ (52 + s) * den ≤ num * unitsInOne
  · -- The quotient has the exponent of the double.
    have hhigh := h.lt_double hmantissa hden
    rw [Nat.add_right_comm 52 1 s] at hhigh
    have hlog := log2_div_eq hpower hhigh hden
    exact nearest_eq (by omega) hround hfit
  · -- The quotient is too small for it.
    have hbelow : num * unitsInOne < 2 ^ 52 * (2 ^ s * den) := by
      rw [← Nat.mul_assoc, ← Nat.pow_add]
      exact Nat.lt_of_not_le hpower
    cases s with
    | zero =>
      -- No double has a smaller exponent, and the difference of the reader stops at zero.
      have hlog : (num * unitsInOne / den).log2 ≤ 51 := log2_div_le (by simpa using hbelow) hden
      exact nearest_eq (by omega) hround hfit
    | succ t =>
      have hlarge : 2 ^ 52 ≤ m := hnormal.resolve_left (Nat.succ_ne_zero t)
      obtain rfl := h.eq_power hlarge hden hbelow
      exact nearest_below_power h hden hbelow hexponent

/-- Only zero has numbers below half of the smallest double in its interval. -/
theorem RoundsTo.eq_zero (h : RoundsTo m s num den) (hmag : IsMagnitude m s)
    (hsmall : 4 * (num * unitsInOne) < 2 * (2 ^ s * den)) : s * 2 ^ 52 + m = 0 := by
  have hzero : m = 0 := by
    by_contra hne
    have hle : 2 ≤ (interval m s).low := by
      have := le_low m s
      omega
    have hmul := Nat.mul_le_mul_right (2 ^ s * den) hle
    have hlow := h.low
    omega
  have hnormal := hmag.normal
  omega

/-- A decimal is so small that the reader takes it for zero without computing a power. -/
theorem lt_of_small {d k : Nat} (h : 400 + (d.log2 + 1) < k) :
    4 * (d * unitsInOne) < 10 ^ k := by
  have hd : d < 10 ^ (d.log2 + 1) :=
    calc d < 2 ^ (d.log2 + 1) := Nat.lt_log2_self
      _ ≤ 10 ^ (d.log2 + 1) := Nat.pow_le_pow_left (by decide) _
  obtain ⟨places, hplaces, hunits⟩ : ∃ places ≤ 400, 4 * unitsInOne ≤ 10 ^ places :=
    ⟨400, Nat.le_refl _, by decide +kernel⟩
  calc 4 * (d * unitsInOne) = d * (4 * unitsInOne) := by ring
    _ ≤ d * 10 ^ places := Nat.mul_le_mul_left d hunits
    _ < 10 ^ (d.log2 + 1) * 10 ^ places := Nat.mul_lt_mul_of_pos_right hd (Nat.pow_pos (by decide))
    _ = 10 ^ (d.log2 + 1 + places) := (Nat.pow_add 10 _ _).symm
    _ ≤ 10 ^ k := Nat.pow_le_pow_right (by decide) (by omega)

/-- **A decimal in the interval of a double is read as the double.** -/
theorem nearestDecimal_of_roundsTo {d k : Nat} (hmag : IsMagnitude m s)
    (h : RoundsTo m s d (10 ^ k)) : nearestDecimal d (-(k : Int)) = s * 2 ^ 52 + m := by
  have hden : 0 < 10 ^ k := Nat.pow_pos (by decide)
  have hnearest := nearest_of_roundsTo hmag hden h
  unfold nearestDecimal
  split
  · -- No digit is left, and only zero is that near to zero.
    rename_i hd
    subst hd
    refine (h.eq_zero hmag ?_).symm
    have := Nat.mul_pos (Nat.two_pow_pos s) hden
    omega
  split
  · obtain rfl : k = 0 := by omega
    simpa using hnearest
  · have habs : (-(k : Int)).natAbs = k := by omega
    rw [habs]
    split
    · -- The reader does not compute so large a power, and takes the decimal for zero.
      rename_i hsmall
      refine (h.eq_zero hmag ?_).symm
      have hlt := lt_of_small hsmall
      have hle : 10 ^ k ≤ 2 ^ s * 10 ^ k := Nat.le_mul_of_pos_left _ (Nat.two_pow_pos s)
      omega
    · exact hnearest

/-! ## Writing -/

/-- A point that a grid has in the interval is in the interval. -/
theorem holds_of_point? {i : Interval} {g : Grid} {c : Nat} (h : i.point? g = some c) :
    i.holds g c = true := by
  unfold Interval.point? at h
  simp only at h
  split at h
  · rename_i hbelow
    obtain rfl := Option.some.inj h
    exact (Bool.and_eq_true_iff.mp hbelow).1
  · split at h
    · rename_i habove
      obtain rfl := Option.some.inj h
      exact habove
    · cases h

/-- Every grid that is tried keeps to the interval, and the exact value does so anyway. -/
theorem shortestFrom_roundsTo (m s n : Nat) (k : Int) :
    RoundsTo m s (shortestFrom m s n k).numerator (shortestFrom m s n k).denominator := by
  induction n generalizing k with
  | zero =>
    -- No grid is left. The exact value is taken, whose denominator divides `10^1076`.
    have hneg : ¬ (0 : Int) ≤ -1076 := by decide
    have hpos : 0 < Nat.pow 10 (-1076 : Int).natAbs := by decide +kernel
    have hpow : 4 * Nat.pow 5 1076 * unitsInOne = Nat.pow 10 (-1076 : Int).natAbs := by
      decide +kernel
    unfold shortestFrom Scaled.numerator Scaled.denominator
    rw [if_neg hneg, if_neg hneg, Nat.mul_one]
    refine roundsTo_exact hpos ?_
    rw [← hpow]
    generalize Nat.pow 5 1076 = p
    show 4 * m * 2 ^ s * p * unitsInOne = m * (2 ^ s * (4 * p * unitsInOne))
    ring
  | succ n ih =>
    rw [shortestFrom]
    split
    · rename_i c hc
      exact holds_iff.mp (holds_of_point? hc)
    · exact ih (k - 1)

/-- **The shortest decimal of a double rounds to the double.** -/
theorem shortest_roundsTo (m s : Nat) :
    RoundsTo m s (shortest m s).numerator (shortest m s).denominator :=
  shortestFrom_roundsTo m s _ _

end Sugod.Decimal
