import Sugod.Proofs.ReadBack
import Sugod.Proofs.Reentry

/-!
# The text of a double and what it is read as

A double below `10^16` in magnitude is displayed with a point and digits on both sides of it. From
`10^16` on every double is whole and is displayed in digits only, with a sign in front of them if it
is negative. An input field is read as a whole number of 64 bits before it is read as a number with
a fraction, so such a text is not always read as the double that was displayed.

The main statement is `float_text_read`. The text is read as the double itself exactly if the double
is below `10^16`, or is `2^63` or more; between the two limits it is read as a whole number. The
proof has three parts.

* What is written rounds to the double (`Decimal.magnitudeText_of_lt`,
  `Decimal.magnitudeText_of_le`). The shortest decimal has a fraction if the double is not whole,
  for then no whole number rounds to it.
* The number that is written for a double from `10^16` on is below `2^63` exactly if the double is
  (`Decimal.magnitudeText_limit`). The shortest decimal may be larger or smaller than the double, by
  half of the distance to the next one at most.
* What rounds to a double is read as the double (`Decimal.nearestDecimal_of_roundsTo`).
-/

set_option autoImplicit false

namespace Sugod.Decimal

open Binary (IsMagnitude)

variable {m s : Nat}

/-! ## Digits on paper -/

theorem isDigits_zeros {ds : List Char} (h : Text.IsDigits ds) (before after : Nat) :
    Text.IsDigits (List.replicate before '0' ++ ds ++ List.replicate after '0') := by
  refine ⟨by simp [h.1], fun c hc => ?_⟩
  simp only [List.mem_append, List.mem_replicate] at hc
  rcases hc with (⟨-, rfl⟩ | hc) | ⟨-, rfl⟩
  · rfl
  · exact h.2 c hc
  · rfl

theorem numeralValue_append_zeros (ds : List Char) (k : Nat) :
    numeralValue (ds ++ List.replicate k '0') = numeralValue ds * 10 ^ k := by
  induction k with
  | zero => simp
  | succ k ih =>
    have hzero : digitValue '0' = 0 := rfl
    rw [List.replicate_succ', ← List.append_assoc, numeralValue_append_singleton, ih, hzero,
      Nat.pow_succ]
    ring

/-- A decimal without a fraction is written in digits. -/
theorem positional_of_nonneg {d : Scaled} (h : 0 ≤ d.k) :
    Text.IsDigits d.positional ∧ numeralValue d.positional = d.numerator ∧ d.denominator = 1 := by
  have htext : d.positional = numeral d.c ++ List.replicate d.k.natAbs '0' := if_pos h
  have hnum : d.numerator = d.c * 10 ^ d.k.natAbs := by
    rw [Scaled.numerator, if_pos h]
    rfl
  refine ⟨?_, ?_, if_pos h⟩
  · rw [htext]
    simpa using isDigits_zeros (Entry.isDigits_numeral d.c) 0 d.k.natAbs
  · rw [htext, numeralValue_append_zeros, numeralValue_numeral, hnum]

/-- A decimal with a fraction is written with digits on both sides of a point. -/
theorem positional_of_neg {d : Scaled} (h : d.k < 0) :
    ∃ whole fs, d.positional = whole ++ '.' :: fs ∧ Text.IsDigits whole ∧ Text.IsDigits fs ∧
      numeralValue (whole ++ fs) = d.numerator ∧ 10 ^ fs.length = d.denominator := by
  obtain ⟨padded, hpadded⟩ : ∃ padded, padded =
      List.replicate (d.k.natAbs + 1 - (numeral d.c).length) '0' ++ numeral d.c := ⟨_, rfl⟩
  have htext : d.positional = padded.take (padded.length - d.k.natAbs) ++
      '.' :: padded.drop (padded.length - d.k.natAbs) := by
    rw [hpadded]
    exact if_neg (by omega)
  have hdigits : Text.IsDigits padded := by
    rw [hpadded]
    simpa using isDigits_zeros (Entry.isDigits_numeral d.c) _ 0
  have hlength : d.k.natAbs < padded.length := by
    rw [hpadded, List.length_append, List.length_replicate]
    omega
  refine ⟨_, _, htext, ⟨?_, fun c hc => hdigits.2 c (List.mem_of_mem_take hc)⟩,
    ⟨?_, fun c hc => hdigits.2 c (List.mem_of_mem_drop hc)⟩, ?_, ?_⟩
  · rw [← List.length_pos_iff, List.length_take]
    omega
  · rw [← List.length_pos_iff, List.length_drop]
    omega
  · rw [List.take_append_drop, hpadded, numeralValue_zeros, Scaled.numerator, if_neg (by omega),
      Nat.mul_one]
  · have hdrop : (padded.drop (padded.length - d.k.natAbs)).length = d.k.natAbs := by
      rw [List.length_drop]
      omega
    rw [hdrop, Scaled.denominator, if_neg (by omega)]
    rfl

/-! ## Whole values and others -/

/-- Up to exponent 1074 the unit of a double divides one. -/
theorem unitsInOne_eq_mul (h : s ≤ 1074) : ∃ p, unitsInOne = p * 2 ^ s := by
  obtain ⟨e, he⟩ : ∃ e, e = 1074 := ⟨_, rfl⟩
  obtain ⟨p, hp⟩ := Nat.pow_dvd_pow 2 (by omega : s ≤ e)
  exact ⟨p, by rw [unitsInOne_eq_pow he, hp, Nat.mul_comm]⟩

/-- From exponent 1074 on the unit of a double is whole. -/
theorem two_pow_eq_mul (h : 1074 ≤ s) : ∃ j, s = 1074 + j ∧ 2 ^ s = 2 ^ j * unitsInOne := by
  obtain ⟨j, rfl⟩ := Nat.exists_eq_add_of_le h
  obtain ⟨e, he⟩ : ∃ e, e = 1074 := ⟨_, rfl⟩
  refine ⟨j, rfl, ?_⟩
  rw [unitsInOne_eq_pow he, ← Nat.pow_add, he, Nat.add_comm]

/-- No whole number rounds to a double that is not whole. -/
theorem RoundsTo.dvd {n : Nat} (h : RoundsTo m s n 1) : unitsInOne ∣ m * 2 ^ s := by
  by_cases hs : s ≤ 1074
  · -- One is a multiple of the unit. So is `n`, and half of a unit around it there is no other one.
    obtain ⟨p, hp⟩ := unitsInOne_eq_mul hs
    have hunit : 0 < 2 ^ s := Nat.two_pow_pos s
    have hlow := h.low
    have hhigh := h.high
    rw [hp, Nat.mul_one] at hlow hhigh
    have hvalue : 4 * (n * (p * 2 ^ s)) = 4 * (n * p) * 2 ^ s := by ring
    rw [hvalue] at hlow hhigh
    have hle := Nat.le_of_mul_le_mul_right hlow hunit
    have hge := Nat.le_of_mul_le_mul_right hhigh hunit
    have hm : m = n * p := by
      have := le_low m s
      omega
    exact ⟨n, by rw [hp, hm]; ring⟩
  · obtain ⟨j, -, hj⟩ := two_pow_eq_mul (by omega : 1074 ≤ s)
    exact ⟨m * 2 ^ j, by rw [hj]; ring⟩

/-- The shortest decimal of a double that is not whole has a fraction. -/
theorem k_shortest_neg (h : ¬ unitsInOne ∣ m * 2 ^ s) : (shortest m s).k < 0 := by
  by_contra hnot
  have hrounds := shortest_roundsTo m s
  rw [Scaled.denominator, if_pos (by omega)] at hrounds
  exact h hrounds.dvd

/-- A grid that has the point next to the value from below has a point. -/
theorem isSome_point? {i : Interval} {g : Grid} (h : i.holds g (i.value * g.unit / g.step) = true) :
    (i.point? g).isSome = true := by
  unfold Interval.point?
  simp only [h]
  cases i.holds g (i.value * g.unit / g.step + 1) with
  | false => rfl
  | true =>
    simp only [Bool.true_and, Bool.not_true, Bool.false_or, if_true]
    split <;> rfl

/-- A whole value is on the grid of whole numbers. -/
theorem isSome_point?_whole (h : unitsInOne ∣ m * 2 ^ s) :
    ((interval m s).point? (grid s 0)).isSome = true := by
  obtain ⟨n, hn⟩ := h
  have hvalue : (interval m s).value * (grid s 0).unit / (grid s 0).step = n := by
    have hpow : Nat.pow 2 1076 = 4 * unitsInOne := by decide +kernel
    have hstep : (grid s 0).step = 4 * unitsInOne := by
      unfold grid
      rw [hpow]
      simp
    have hunit : (grid s 0).unit = 2 ^ s := Nat.mul_one _
    have hfour : (interval m s).value = 4 * m := rfl
    have hpos : 0 < 4 * unitsInOne := Nat.mul_pos (by decide) unitsInOne_pos
    have hexact : 4 * m * 2 ^ s = n * (4 * unitsInOne) := by
      rw [Nat.mul_assoc, hn]
      ring
    rw [hstep, hunit, hfour, hexact, Nat.mul_div_cancel _ hpos]
  apply isSome_point?
  rw [hvalue]
  refine holds_iff.mpr (roundsTo_exact Nat.one_pos ?_)
  show n * 1 * unitsInOne = m * (2 ^ s * 1)
  rw [Nat.mul_one, Nat.mul_one, hn, Nat.mul_comm]

/-- The grids are tried from coarse to fine, so that one of whole numbers is taken. -/
theorem k_shortestFrom_nonneg (h : unitsInOne ∣ m * 2 ^ s) {n : Nat} {k : Int} (hk : 0 ≤ k)
    (hn : k < n) : 0 ≤ (shortestFrom m s n k).k := by
  induction n generalizing k with
  | zero => omega
  | succ n ih =>
    rw [shortestFrom]
    split
    · exact hk
    · rename_i hnone
      have hne : k ≠ 0 := by
        rintro rfl
        have hsome := isSome_point?_whole h
        rw [hnone] at hsome
        cases hsome
      exact ih (by omega) (by omega)

/-- A double from `10^16` on has a unit of at least two. -/
theorem Binary.IsMagnitude.exponent_of_large (hmag : IsMagnitude m s)
    (h : wholeLimit * unitsInOne ≤ m * 2 ^ s) : 1075 ≤ s := by
  by_contra hs
  obtain ⟨p, hp⟩ := unitsInOne_eq_mul (by omega : s ≤ 1074)
  have hpos := unitsInOne_pos
  have hunit : 2 ^ s ≤ unitsInOne := by
    rw [hp]
    refine Nat.le_mul_of_pos_left _ (Nat.pos_of_ne_zero ?_)
    rintro rfl
    omega
  have hlimit : 2 ^ 53 < wholeLimit := by decide
  have hlt : m * 2 ^ s < wholeLimit * unitsInOne :=
    calc m * 2 ^ s ≤ m * unitsInOne := Nat.mul_le_mul_left m hunit
      _ < wholeLimit * unitsInOne := Nat.mul_lt_mul_of_pos_right (hmag.mantissa.trans hlimit) hpos
  omega

/-- The shortest decimal of a double from `10^16` on has no fraction. -/
theorem k_shortest_nonneg (hmag : IsMagnitude m s) (h : wholeLimit * unitsInOne ≤ m * 2 ^ s) :
    0 ≤ (shortest m s).k := by
  have hs := hmag.exponent_of_large h
  obtain ⟨j, -, hj⟩ := two_pow_eq_mul (by omega : 1074 ≤ s)
  have hlog : m.log2 < 53 := by
    by_cases hm : m = 0
    · simp [hm]
    · exact (Nat.log2_lt hm).mpr hmag.mantissa
  have hexponent := hmag.exponent
  refine k_shortestFrom_nonneg ⟨m * 2 ^ j, by rw [hj]; ring⟩ ?_ ?_
  · unfold ceilingExponent
    omega
  · unfold ceilingExponent
    omega

/-! ## The text of a magnitude -/

/-- **Below `10^16` a magnitude is written with a point**, and what is written rounds to it. -/
theorem magnitudeText_of_lt (h : m * 2 ^ s < wholeLimit * unitsInOne) :
    ∃ whole fs, magnitudeText m s = whole ++ '.' :: fs ∧ Text.IsDigits whole ∧ Text.IsDigits fs ∧
      RoundsTo m s (numeralValue (whole ++ fs)) (10 ^ fs.length) := by
  have hpow : Nat.pow 2 1074 = unitsInOne := by
    unfold unitsInOne
    rfl
  unfold magnitudeText
  rw [hpow]
  by_cases hdvd : unitsInOne ∣ m * 2 ^ s
  · -- A whole number, with a zero put behind the point.
    obtain ⟨n, hn⟩ := hdvd
    have hmod : m * 2 ^ s % unitsInOne = 0 := Nat.mod_eq_zero_of_dvd ⟨n, hn⟩
    have hdiv : m * 2 ^ s / unitsInOne = n := Nat.div_eq_of_eq_mul_right unitsInOne_pos hn
    have hsmall : n < wholeLimit := by
      rw [hn, Nat.mul_comm] at h
      exact Nat.lt_of_mul_lt_mul_right h
    refine ⟨numeral n, ['0'], ?_, Entry.isDigits_numeral n, ⟨by simp, by simp⟩, ?_⟩
    · exact if_pos ⟨hmod, hdiv ▸ hsmall⟩ |>.trans (by rw [Nat.pow_eq, hdiv])
    · have hvalue : numeralValue (numeral n ++ ['0']) = n * 10 := by
        simpa [numeralValue_numeral] using numeralValue_append_zeros (numeral n) 1
      refine roundsTo_exact (by decide) ?_
      rw [hvalue]
      show n * 10 * unitsInOne = m * (2 ^ s * 10)
      calc n * 10 * unitsInOne = unitsInOne * n * 10 := by ring
        _ = m * (2 ^ s * 10) := by rw [← hn, Nat.mul_assoc]
  · -- The shortest decimal, which has a fraction.
    obtain ⟨whole, fs, htext, hwhole, hfs, hnum, hden⟩ := positional_of_neg (k_shortest_neg hdvd)
    refine ⟨whole, fs, ?_, hwhole, hfs, ?_⟩
    · rw [← htext]
      exact if_neg fun hcond => hdvd (Nat.dvd_of_mod_eq_zero hcond.1)
    · rw [hnum, hden]
      exact shortest_roundsTo m s

/-- **From `10^16` on a magnitude is written in digits only**, and the number rounds to it. -/
theorem magnitudeText_of_le (hmag : IsMagnitude m s) (h : wholeLimit * unitsInOne ≤ m * 2 ^ s) :
    Text.IsDigits (magnitudeText m s) ∧ RoundsTo m s (numeralValue (magnitudeText m s)) 1 := by
  have hpow : Nat.pow 2 1074 = unitsInOne := by
    unfold unitsInOne
    rfl
  have htext : magnitudeText m s = (shortest m s).positional := by
    unfold magnitudeText
    rw [hpow]
    refine if_neg fun hcond => absurd hcond.2 (Nat.not_lt.mpr ?_)
    exact (Nat.le_div_iff_mul_le unitsInOne_pos).mpr h
  obtain ⟨hdigits, hnum, hden⟩ := positional_of_nonneg (k_shortest_nonneg hmag h)
  rw [htext]
  refine ⟨hdigits, ?_⟩
  rw [hnum, ← hden]
  exact shortest_roundsTo m s

/-! ## The limit of whole numbers of 64 bits -/

section Limit

variable {n j : Nat}

/-- What rounds to a double with the unit `2^j` differs from it by half of the unit at most. -/
theorem RoundsTo.near (h : RoundsTo m s n 1) (hj : 2 ^ s = 2 ^ j * unitsInOne) :
    4 * m * 2 ^ j ≤ 4 * n + 2 * 2 ^ j ∧ 4 * n ≤ 4 * m * 2 ^ j + 2 * 2 ^ j := by
  have hlow := h.low
  have hhigh := h.high
  rw [Nat.mul_one, hj, ← Nat.mul_assoc, ← Nat.mul_assoc] at hlow hhigh
  have hle := Nat.le_of_mul_le_mul_right hlow unitsInOne_pos
  have hge := Nat.le_of_mul_le_mul_right hhigh unitsInOne_pos
  have hmul := Nat.mul_le_mul_right (2 ^ j) (le_low m s)
  rw [Nat.add_mul] at hge hmul
  exact ⟨by omega, hge⟩

/-- The value and the limit are multiples of the unit, so half of a unit is not enough to get from
one to the other. -/
theorem lt_limit (hm : 2 ^ 52 ≤ m) (h : m * 2 ^ j < 2 ^ 63)
    (hn : 4 * n ≤ 4 * m * 2 ^ j + 2 * 2 ^ j) : n < 2 ^ 63 := by
  have hj : j < 11 := by
    by_contra hnot
    have hpow : 2 ^ 11 ≤ 2 ^ j := Nat.pow_le_pow_right (by decide) (by omega)
    have hmul := Nat.mul_le_mul hm hpow
    omega
  have hsplit : 2 ^ (63 - j) * 2 ^ j = 2 ^ 63 := by
    rw [← Nat.pow_add]
    congr 1
    omega
  have hlt : m + 1 ≤ 2 ^ (63 - j) := by
    rw [← hsplit] at h
    exact Nat.lt_of_mul_lt_mul_right h
  have hunit : 0 < 2 ^ j := Nat.two_pow_pos j
  have hmul := Nat.mul_le_mul_right (2 ^ j) hlt
  rw [hsplit] at hmul
  linarith

/-- A double of `2^63` or more has a unit of at least `2^11`. -/
theorem eleven_le (hm : m < 2 ^ 53) (h : 2 ^ 63 ≤ m * 2 ^ j) : 11 ≤ j := by
  by_contra hnot
  have hpow : 2 ^ j ≤ 2 ^ 10 := Nat.pow_le_pow_right (by decide) (by omega)
  have hlt := Nat.mul_lt_mul_of_lt_of_le hm hpow (by decide)
  omega

theorem limit_lt (hlow : 2 ^ 52 ≤ m) (hhigh : m < 2 ^ 53) (h : 2 ^ 63 < m * 2 ^ j)
    (hn : 4 * m * 2 ^ j ≤ 4 * n + 2 * 2 ^ j) : 2 ^ 63 < n := by
  -- With a larger unit than that of `2^63` even the smallest mantissa is far above the limit.
  rcases Nat.lt_or_eq_of_le (eleven_le hhigh h.le) with hj | rfl
  · have hpow : 2 ^ 12 ≤ 2 ^ j := Nat.pow_le_pow_right (by decide) hj
    have hmul := Nat.mul_le_mul_right (2 ^ j) hlow
    linarith
  · omega

theorem eq_limit (hlow : 2 ^ 52 ≤ m) (hhigh : m < 2 ^ 53) (h : m * 2 ^ j = 2 ^ 63) :
    m = 2 ^ 52 ∧ j = 11 := by
  have hj : j = 11 := by
    refine Nat.le_antisymm ?_ (eleven_le hhigh h.ge)
    by_contra hnot
    have hpow : 2 ^ 12 ≤ 2 ^ j := Nat.pow_le_pow_right (by decide) (by omega)
    have hmul := Nat.mul_le_mul hlow hpow
    omega
  subst hj
  exact ⟨by omega, rfl⟩

end Limit

/-- **The number that is written for a double is below `2^63` exactly if the double is**, and it
never is `2^63` itself: the text of the double `2^63` has fewer digits and stands for a larger
number. -/
theorem magnitudeText_limit (hmag : IsMagnitude m s) (h : wholeLimit * unitsInOne ≤ m * 2 ^ s) :
    (m * 2 ^ s < 2 ^ 63 * unitsInOne ∧ numeralValue (magnitudeText m s) < 2 ^ 63) ∨
      (2 ^ 63 * unitsInOne ≤ m * 2 ^ s ∧ 2 ^ 63 < numeralValue (magnitudeText m s)) := by
  have hs := hmag.exponent_of_large h
  obtain ⟨j, hsum, hj⟩ := two_pow_eq_mul (by omega : 1074 ≤ s)
  obtain ⟨hlow, hhigh⟩ := (magnitudeText_of_le hmag h).2.near hj
  have hlarge : 2 ^ 52 ≤ m := hmag.normal.resolve_left (by omega)
  rw [hj, ← Nat.mul_assoc, Nat.mul_lt_mul_right unitsInOne_pos,
    Nat.mul_le_mul_right_iff unitsInOne_pos]
  rcases Nat.lt_trichotomy (m * 2 ^ j) (2 ^ 63) with hlt | heq | hgt
  · exact .inl ⟨hlt, lt_limit hlarge hlt hhigh⟩
  · -- Half of a unit around `2^63` there are numbers on both sides of it. Its text is computed.
    obtain ⟨rfl, rfl⟩ := eq_limit hlarge hmag.mantissa heq
    subst hsum
    exact .inr (by decide +kernel)
  · exact .inr ⟨hgt.le, limit_lt hlarge hmag.mantissa hgt hlow⟩

end Sugod.Decimal

/-! ## Reading the text -/

namespace Sugod

open Decimal (numeralValue nearestDecimal magnitudeText wholeLimit unitsInOne)
open Decimal.Binary (floatOfWord Encodes ofFloat)

namespace Entry

variable {cs : List Char} {negative : Bool}

/-- The sign of a number is read apart from the digits and what stands behind them. -/
theorem sign_of_signed {whole : List Char} (h : Text.IsDigits whole) (tail : List Char) :
    sign (if negative then '-' :: (whole ++ tail) else whole ++ tail) =
      (negative, whole ++ tail) := by
  cases negative with
  | true => rfl
  | false =>
    obtain ⟨c, rest, rfl⟩ := List.exists_cons_of_ne_nil h.1
    exact sign_of_isDigit (h.2 c List.mem_cons_self) (rest ++ tail)

/-- Digits with a fraction behind them, or without one, are read as the nearest double. -/
theorem float?_eq {whole tail fs : List Char} (hsign : sign cs = (negative, whole ++ tail))
    (hwhole : Text.IsDigits whole) (htail : ∀ c ∈ tail.head?, c.isDigit = false)
    (hfs : fraction tail = (fs, [])) :
    float? cs = some (floatOfWord negative
      (nearestDecimal (numeralValue (whole ++ fs)) (-(fs.length : Int)))) := by
  have htake : (whole ++ tail).takeWhile Char.isDigit = whole :=
    Piece.takeWhile_of_stop hwhole.2 htail
  have hdrop : (whole ++ tail).dropWhile Char.isDigit = tail :=
    Piece.dropWhile_of_stop hwhole.2 htail
  have hne : whole.isEmpty = false := by simpa using hwhole.1
  simp [float?, hsign, htake, hdrop, hfs, hne, exponent?]

/-- Digits are read as a whole number if it fits in 64 bits. -/
theorem isSome_int? {ds : List Char} (hsign : sign cs = (negative, ds)) (hds : Text.IsDigits ds)
    (h : numeralValue ds < 2 ^ 63) : (int? cs).isSome = true := by
  have hvalue : digits? ds = some (numeralValue ds) := digits?_eq_some_iff.mpr ⟨hds, rfl⟩
  have hfits :
      Int64.minValue.toInt ≤ (if negative then -(numeralValue ds : Int) else numeralValue ds) ∧
      (if negative then -(numeralValue ds : Int) else numeralValue ds) ≤ Int64.maxValue.toInt := by
    rw [Int64.toInt_minValue, Int64.toInt_maxValue]
    split <;> omega
  simp only [int?, hsign, hvalue, if_pos hfits]
  rfl

theorem int?_eq_none {ds : List Char} (hsign : sign cs = (negative, ds)) (hds : Text.IsDigits ds)
    (h : 2 ^ 63 < numeralValue ds) : int? cs = none := by
  have hvalue : digits? ds = some (numeralValue ds) := digits?_eq_some_iff.mpr ⟨hds, rfl⟩
  simp only [int?, hsign, hvalue]
  refine if_neg fun hfits => ?_
  rw [Int64.toInt_minValue, Int64.toInt_maxValue] at hfits
  split at hfits <;> omega

/-- What has a point is no whole number. -/
theorem int?_of_point {whole fs : List Char} (hsign : sign cs = (negative, whole ++ '.' :: fs)) :
    int? cs = none := by
  have hnone : digits? (whole ++ '.' :: fs) = none := by
    cases hdigits : digits? (whole ++ '.' :: fs) with
    | none => rfl
    | some n => exact absurd ((digits?_eq_some_iff.mp hdigits).1.2 '.' (by simp)) (by decide)
  simp only [int?, hsign, hnone]

end Entry

variable {x : Float} {negative : Bool} {m s : Nat}

theorem Decimal.floatText_eq (hx : Encodes x negative m s) :
    floatText x = if negative then '-' :: magnitudeText m s else magnitudeText m s := by
  rw [floatText, hx.ofFloat, Binary.text]

/-- What a double is read as, given the kind of its text. -/
theorem Entry.fieldValue_floatText_of_lt (hx : Encodes x negative m s)
    (h : m * 2 ^ s < wholeLimit * unitsInOne) : fieldValue (Decimal.floatText x) = .float x := by
  obtain ⟨whole, fs, htext, hwhole, hfs, hrounds⟩ := Decimal.magnitudeText_of_lt h
  have hsign : sign (Decimal.floatText x) = (negative, whole ++ '.' :: fs) := by
    rw [Decimal.floatText_eq hx, htext]
    exact sign_of_signed hwhole _
  have hfraction : fraction ('.' :: fs) = (fs, []) := by
    simp [fraction, List.takeWhile_eq_self_iff.mpr hfs.2, List.dropWhile_eq_nil_iff.mpr hfs.2]
  have hfloat := float?_eq hsign hwhole (by simp) hfraction
  rw [Decimal.nearestDecimal_of_roundsTo hx.isMagnitude hrounds, hx.floatOfWord] at hfloat
  rw [fieldValue, int?_of_point hsign, hfloat]

theorem Entry.fieldValue_floatText_of_le (hx : Encodes x negative m s)
    (h : wholeLimit * unitsInOne ≤ m * 2 ^ s) :
    (m * 2 ^ s < 2 ^ 63 * unitsInOne ∧ ∃ n, fieldValue (Decimal.floatText x) = .int n) ∨
      (2 ^ 63 * unitsInOne ≤ m * 2 ^ s ∧ fieldValue (Decimal.floatText x) = .float x) := by
  obtain ⟨hdigits, hrounds⟩ := Decimal.magnitudeText_of_le hx.isMagnitude h
  have hsign : sign (Decimal.floatText x) = (negative, magnitudeText m s) := by
    rw [Decimal.floatText_eq hx]
    simpa using sign_of_signed hdigits []
  rcases Decimal.magnitudeText_limit hx.isMagnitude h with ⟨hlt, hvalue⟩ | ⟨hle, hvalue⟩
  · obtain ⟨n, hn⟩ := Option.isSome_iff_exists.mp (isSome_int? hsign hdigits hvalue)
    exact .inl ⟨hlt, n, by rw [fieldValue, hn]⟩
  · have hbody : sign (Decimal.floatText x) = (negative, magnitudeText m s ++ []) := by
      rw [List.append_nil, hsign]
    have hfloat := float?_eq hbody hdigits (by simp) rfl
    rw [List.append_nil, List.length_nil, Decimal.nearestDecimal_of_roundsTo hx.isMagnitude hrounds,
      hx.floatOfWord] at hfloat
    exact .inr ⟨hle, by rw [fieldValue, int?_eq_none hsign hdigits hvalue, hfloat]⟩

/-! ## Doubles that are displayed and typed in again -/

/-- The magnitude of a finite number. -/
def Decimal.Binary.magnitude : Decimal.Binary → ℚ
  | finite _ m s => (m * 2 ^ s : ℕ) / unitsInOne
  | _ => 0

/-- Whether a finite number has the sign of the negative ones. -/
def Decimal.Binary.isNegative : Decimal.Binary → Bool
  | finite negative _ _ => negative
  | _ => false

/-- A point with a digit right behind it. -/
def Text.ShowsFraction (cs : List Char) : Prop :=
  ∃ before d after, d.isDigit = true ∧ cs = before ++ '.' :: d :: after

theorem Decimal.magnitude_lt_iff (hx : Encodes x negative m s) (limit : ℕ) :
    (ofFloat x).magnitude < limit ↔ m * 2 ^ s < limit * unitsInOne := by
  have hpos : (0 : ℚ) < unitsInOne := Nat.cast_pos.mpr Decimal.unitsInOne_pos
  rw [hx.ofFloat, Binary.magnitude, div_lt_iff₀ hpos, ← Nat.cast_mul, Nat.cast_lt]

namespace Decimal

/-- The characters of the text of a double, before and behind the sign. -/
theorem mem_floatText (hx : Encodes x negative m s) {c : Char} (h : c ∈ floatText x) :
    c = '-' ∨ c ∈ magnitudeText m s := by
  rw [floatText_eq hx] at h
  split at h
  · exact List.mem_cons.mp h
  · exact .inr h

theorem showsFraction_floatText (hx : Encodes x negative m s)
    (h : m * 2 ^ s < wholeLimit * unitsInOne) : Text.ShowsFraction (floatText x) := by
  obtain ⟨whole, fs, htext, -, hfs, -⟩ := magnitudeText_of_lt h
  obtain ⟨d, after, rfl⟩ := List.exists_cons_of_ne_nil hfs.1
  have hd : d.isDigit = true := hfs.2 d List.mem_cons_self
  rw [floatText_eq hx, htext]
  split
  · exact ⟨'-' :: whole, d, after, hd, rfl⟩
  · exact ⟨whole, d, after, hd, rfl⟩

/-- From `10^16` on the text of a double is its sign and digits. -/
theorem floatText_of_le (hx : Encodes x negative m s) (h : wholeLimit * unitsInOne ≤ m * 2 ^ s) :
    ∃ ds, Text.IsDigits ds ∧ floatText x = if (ofFloat x).isNegative then '-' :: ds else ds := by
  have hsign : (ofFloat x).isNegative = negative := by rw [hx.ofFloat, Binary.isNegative]
  refine ⟨magnitudeText m s, (magnitudeText_of_le hx.isMagnitude h).1, ?_⟩
  rw [hsign, floatText_eq hx]

theorem not_showsFraction_floatText (hx : Encodes x negative m s)
    (h : wholeLimit * unitsInOne ≤ m * 2 ^ s) : ¬ Text.ShowsFraction (floatText x) := by
  rintro ⟨before, d, after, -, htext⟩
  have hpoint : '.' ∈ floatText x := by simp [htext]
  rcases mem_floatText hx hpoint with hminus | hmem
  · cases hminus
  · have hdigit := (magnitudeText_of_le hx.isMagnitude h).1.2 '.' hmem
    cases hdigit

theorem plain_of_mem_floatText (hx : Encodes x negative m s) {c : Char} (h : c ∈ floatText x) :
    c ≠ ',' ∧ Text.isBlank c = false := by
  have hdigit : c.isDigit = true → c ≠ ',' ∧ Text.isBlank c = false := by
    intro hc
    refine ⟨?_, Value.isBlank_of_isDigit hc⟩
    rintro rfl
    cases hc
  rcases mem_floatText hx h with rfl | hmem
  · decide
  · by_cases hlarge : wholeLimit * unitsInOne ≤ m * 2 ^ s
    · exact hdigit ((magnitudeText_of_le hx.isMagnitude hlarge).1.2 c hmem)
    · obtain ⟨whole, fs, htext, hwhole, hfs, -⟩ := magnitudeText_of_lt (Nat.lt_of_not_le hlarge)
      rw [htext, List.mem_append, List.mem_cons] at hmem
      rcases hmem with hmem | rfl | hmem
      · exact hdigit (hwhole.2 c hmem)
      · decide
      · exact hdigit (hfs.2 c hmem)

end Decimal

/-- **A finite double is displayed with a fraction exactly if it is below `10^16`.** Its text is
read as the double itself, except from `10^16` on and below `2^63`: there it is read as a whole
number. From `10^16` on the text is digits only, with a sign in front of them for a negative
double. -/
theorem float_text_read (x : Float) (h : x.isFinite = true) :
    (Text.ShowsFraction (Value.float x).text.toList ↔ (ofFloat x).magnitude < 10 ^ 16) ∧
      (Entry.values (Value.float x).text = [.float x] ↔
        (ofFloat x).magnitude < 10 ^ 16 ∨ 2 ^ 63 ≤ (ofFloat x).magnitude) ∧
      (10 ^ 16 ≤ (ofFloat x).magnitude → (ofFloat x).magnitude < 2 ^ 63 →
        ∃ n, Entry.values (Value.float x).text = [.int n]) ∧
      (10 ^ 16 ≤ (ofFloat x).magnitude → ∃ ds, Text.IsDigits ds ∧
        (Value.float x).text.toList = if (ofFloat x).isNegative then '-' :: ds else ds) := by
  obtain ⟨negative, m, s, hx⟩ := Decimal.Binary.exists_encodes h
  have hwhole : (ofFloat x).magnitude < 10 ^ 16 ↔ m * 2 ^ s < wholeLimit * unitsInOne := by
    have hcast : ((wholeLimit : ℕ) : ℚ) = 10 ^ 16 := by norm_num [wholeLimit]
    rw [← hcast]
    exact Decimal.magnitude_lt_iff hx wholeLimit
  have hlimit : (ofFloat x).magnitude < 2 ^ 63 ↔ m * 2 ^ s < 2 ^ 63 * unitsInOne := by
    have hcast : ((2 ^ 63 : ℕ) : ℚ) = 2 ^ 63 := by norm_num
    rw [← hcast]
    exact Decimal.magnitude_lt_iff hx (2 ^ 63)
  have hvalues : Entry.values (Value.float x).text = [Entry.fieldValue (Decimal.floatText x)] :=
    Entry.values_of_plain fun c hc => Decimal.plain_of_mem_floatText hx hc
  have htext : (Value.float x).text.toList = Decimal.floatText x := String.toList_ofList
  rw [hvalues, htext, ← not_lt, ← not_lt, hwhole, hlimit]
  by_cases hsmall : m * 2 ^ s < wholeLimit * unitsInOne
  · have hread := Entry.fieldValue_floatText_of_lt hx hsmall
    have hshows := Decimal.showsFraction_floatText hx hsmall
    exact ⟨iff_of_true hshows hsmall, iff_of_true (by rw [hread]) (.inl hsmall),
      fun hnot => absurd hsmall hnot, fun hnot => absurd hsmall hnot⟩
  · have hlarge := Nat.le_of_not_lt hsmall
    have hshows := Decimal.not_showsFraction_floatText hx hlarge
    have hdigits := Decimal.floatText_of_le hx hlarge
    rcases Entry.fieldValue_floatText_of_le hx hlarge with ⟨hlt, n, hread⟩ | ⟨hle, hread⟩
    · have hother : ¬ ([Entry.fieldValue (Decimal.floatText x)] = [.float x]) := by simp [hread]
      have hbetween := not_or.mpr ⟨hsmall, not_not.mpr hlt⟩
      exact ⟨iff_of_false hshows hsmall, iff_of_false hother hbetween,
        fun _ _ => ⟨n, by rw [hread]⟩, fun _ => hdigits⟩
    · have hnot := Nat.not_lt.mpr hle
      exact ⟨iff_of_false hshows hsmall, iff_of_true (by rw [hread]) (.inr hnot),
        fun _ hlt => absurd hlt hnot, fun _ => hdigits⟩

/-- The last double below `10^16`, and `2^63`. -/
theorem float_text_read_limits :
    (9999999999999998.0 : Float).isFinite = true ∧
      Text.ShowsFraction (Value.float 9999999999999998.0).text.toList ∧
      Entry.values (Value.float 9999999999999998.0).text = [.float 9999999999999998.0] ∧
      (9223372036854775808.0 : Float).isFinite = true ∧
      Entry.values (Value.float 9223372036854775808.0).text = [.float 9223372036854775808.0] ∧
      Text.IsDigits (Value.float 9223372036854775808.0).text.toList := by
  have hsmall := float_text_read 9999999999999998.0 (by decide)
  have hlarge := float_text_read 9223372036854775808.0 (by decide)
  have hpositive : (ofFloat 9223372036854775808.0).isNegative = false := by decide +kernel
  have hdigits : Text.IsDigits (Value.float 9223372036854775808.0).text.toList := by
    obtain ⟨ds, hds, htext⟩ := hlarge.2.2.2 (by decide +kernel)
    rw [htext, hpositive]
    exact hds
  exact ⟨by decide, hsmall.1.mpr (by decide +kernel), hsmall.2.1.mpr (.inl (by decide +kernel)),
    by decide, hlarge.2.1.mpr (.inr (by decide +kernel)), hdigits⟩

/-- `10^16` is displayed without a point, and its text is read as a whole number. -/
theorem float_text_not_read :
    (1e16 : Float).isFinite = true ∧ (Value.float 1e16).text = "10000000000000000" ∧
      ¬ Text.ShowsFraction (Value.float 1e16).text.toList ∧
      Entry.values (Value.float 1e16).text = [.int 10000000000000000] := by
  have htext : (Value.float 1e16).text = "10000000000000000" := by decide +kernel
  refine ⟨by decide, htext, ?_, ?_⟩
  · rw [htext]
    rintro ⟨before, d, after, -, hcs⟩
    have hpoint : '.' ∈ "10000000000000000".toList := by simp [hcs]
    revert hpoint
    decide
  · rw [htext]
    rfl

end Sugod
