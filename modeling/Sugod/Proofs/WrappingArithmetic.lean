import Sugod.Proofs.Compositional
import Mathlib.Algebra.Order.Group.Unbundled.Int
import Mathlib.Data.Int.ModEq

/-!
# Arithmetic on whole numbers

Whole numbers have 64 bits. A sum, a difference, a product, a negated number and a magnitude are
exact modulo `2^64` (`Wraps`), so that nothing is ever too large. A quotient goes toward zero, and a
remainder has the sign of the dividend. One quotient does not fit, that of the smallest number and
-1; it wraps around as well, and the remainder is 0.

What an operator makes of two numbers is said of whole expressions (`Mark.Yields`): whatever the
operands are and whatever evaluating them does, if their values are the two numbers, evaluation ends
behind them with the result. In `whole_number_arithmetic`, the main statement, there is a result for
every two numbers; the only failure is a division by zero.
-/

set_option autoImplicit false

namespace Sugod

/-! ## Exact modulo 2^64 -/

/-- Of the whole numbers of 64 bits, this one alone is congruent to the integer modulo `2^64`. -/
def Wraps (x : Int) (n : Int64) : Prop :=
  ∀ m : Int64, m.toInt ≡ x [ZMOD 2 ^ 64] ↔ m = n

theorem wraps_ofInt (x : Int) : Wraps x (Int64.ofInt x) := by
  intro m
  rw [eq_comm, Int64.ofInt_eq_iff_bmod_eq_toInt]
  constructor
  · intro h
    rw [← Int64.toInt_bmod_size m]
    have hmod : x % ((2 ^ 64 : Nat) : Int) = m.toInt % ((2 ^ 64 : Nat) : Int) := h.symm
    rw [← Int.emod_bmod x, hmod, Int.emod_bmod]
    rfl
  · intro h
    rw [← h]
    exact Int.bmod_emod

section wraps

variable (a b : Int64)

theorem wraps_toInt : Wraps a.toInt a := by
  simpa using wraps_ofInt a.toInt

theorem wraps_add : Wraps (a.toInt + b.toInt) (a + b) := by
  simpa [Int64.ofInt_add] using wraps_ofInt (a.toInt + b.toInt)

theorem wraps_sub : Wraps (a.toInt - b.toInt) (a - b) := by
  simpa [Int64.ofInt_sub] using wraps_ofInt (a.toInt - b.toInt)

theorem wraps_mul : Wraps (a.toInt * b.toInt) (a * b) := by
  simpa [Int64.ofInt_mul] using wraps_ofInt (a.toInt * b.toInt)

theorem wraps_neg : Wraps (-a.toInt) (-a) := by
  simpa [Int64.ofInt_neg] using wraps_ofInt (-a.toInt)

/-- A magnitude fits, but for that of the smallest number, which wraps around to that number. -/
theorem wraps_abs : Wraps |a.toInt| a.abs := by
  have hbits : a.abs.toBitVec = if a.toInt < 0 then -a.toBitVec else a.toBitVec := by
    simp [BitVec.abs_eq, BitVec.msb_eq_toInt]
  by_cases hneg : a.toInt < 0
  · have habs : a.abs = -a := Int64.toBitVec_inj.mp (by rw [hbits, if_pos hneg, Int64.toBitVec_neg])
    rw [habs, abs_of_neg hneg]
    exact wraps_neg a
  · have habs : a.abs = a := Int64.toBitVec_inj.mp (by rw [hbits, if_neg hneg])
    rw [habs, abs_of_nonneg (Int.not_lt.mp hneg)]
    exact wraps_toInt a

example : Int64.minValue.abs = Int64.minValue := by decide

end wraps

/-! ## Division toward zero -/

section division

variable {a b : Int64}

/-- Of all quotients, one does not fit. -/
theorem toInt_quotient (h : ¬ (a = Int64.minValue ∧ b = -1)) :
    (a / b).toInt = a.toInt.tdiv b.toInt := by
  by_cases ha : a = Int64.minValue
  · exact Int64.toInt_div_of_ne_right a b fun hb => h ⟨ha, hb⟩
  · exact Int64.toInt_div_of_ne_left a b ha

/-- Quotient and remainder make up the dividend again, also where the quotient wraps around. -/
theorem quotient_mul_add_remainder (a b : Int64) : a / b * b + a % b = a := by
  have hquotient : a / b = Int64.ofInt (a.toInt.tdiv b.toInt) := by
    rw [eq_comm, Int64.ofInt_eq_iff_bmod_eq_toInt, Int64.toInt_div]
  have hremainder : a % b = Int64.ofInt (a.toInt.tmod b.toInt) := by
    rw [← Int64.toInt_mod, Int64.ofInt_toInt]
  calc a / b * b + a % b
      = Int64.ofInt (a.toInt.tdiv b.toInt * b.toInt + a.toInt.tmod b.toInt) := by
        rw [Int64.ofInt_add, Int64.ofInt_mul, Int64.ofInt_toInt, hquotient, hremainder]
    _ = a := by rw [Int.tdiv_mul_add_tmod, Int64.ofInt_toInt]

theorem abs_remainder_lt (hb : b ≠ 0) : |(a % b).toInt| < |b.toInt| := by
  have hb : b.toInt ≠ 0 := fun h => hb (Int64.toInt_inj.mp h)
  rw [Int64.toInt_mod, Int.abs_eq_natAbs, Int.abs_eq_natAbs, Int.natAbs_tmod]
  exact_mod_cast Nat.mod_lt _ (Int.natAbs_pos.mpr hb)

theorem remainder_eq_zero_or_sign_eq (a b : Int64) :
    a % b = 0 ∨ (a % b).toInt.sign = a.toInt.sign := by
  by_cases hdvd : b.toInt ∣ a.toInt
  · left
    rw [← Int64.toInt_inj, Int64.toInt_mod, Int.tmod_eq_zero_of_dvd hdvd]
    rfl
  · right
    rw [Int64.toInt_mod, Int.sign_tmod, if_neg hdvd]

end division

/-! ## Evaluation -/

/-- Whatever expressions have the two numbers as their values, evaluating them with the operator
between them ends with the result, behind what the operands have done. -/
def Mark.Yields (m : Mark) (a b : Int64) (r : Except Cause Value) : Prop :=
  ∀ (op : Token) (left right : Expr) (n : Nat) (s s₁ s₂ : State), op.kind = .mark m →
    Eval.expr n left s = .done (.int a) s₁ → Eval.expr n right s₁ = .done (.int b) s₂ →
    Eval.expr (n + 1) (.binary left op right) s = Action.ofExcept op.line r s₂

/-- The same for an operator in front of one operand. -/
def Mark.YieldsUnary (m : Mark) (a : Int64) (r : Except Cause Value) : Prop :=
  ∀ (op : Token) (operand : Expr) (n : Nat) (s s₁ : State), op.kind = .mark m →
    Eval.expr n operand s = .done (.int a) s₁ →
    Eval.expr (n + 1) (.unary op operand) s = Action.ofExcept op.line r s₁

/-- The same for a call of a built-in function with one argument. -/
def Builtin.Yields (f : Builtin) (a : Int64) (r : Except Cause Value) : Prop :=
  ∀ (callee : Expr) (paren : Token) (args : List Expr) (n : Nat) (s s₁ s₂ : State),
    Eval.expr n callee s = .done (.builtin f) s₁ → Eval.exprs n args s₁ = .done [.int a] s₂ →
    Eval.expr (n + 1) (.call callee paren args) s = Action.ofExcept paren.line r s₂

theorem Operator.binary_of_onInts {op : Token} {m : Mark} {a b : Int64} {r : Except Cause Value}
    (hop : op.kind = .mark m) (h : onInts m a b = some r) : binary op (.int a) (.int b) = r := by
  unfold binary
  rw [hop]
  -- The marks that are no operators on numbers are ruled out by the hypothesis.
  cases m <;> cases h <;> rfl

theorem Mark.yields_of_onInts {m : Mark} {a b : Int64} {r : Except Cause Value}
    (h : Operator.onInts m a b = some r) : m.Yields a b r := by
  intro op left right n s s₁ s₂ hop hleft hright
  rw [Eval.expr, Action.bind_of_done hleft, Action.bind_of_done hright,
    Operator.binary_of_onInts hop h]

/-- A state in which nothing has happened yet. -/
def untouched : State where
  env := {}
  console := {}

/-- An operator yields one result only: literals are operands with every value. -/
theorem Mark.Yields.unique {m : Mark} {a b : Int64} {r r' : Except Cause Value}
    (h : m.Yields a b r) (h' : m.Yields a b r') : r = r' := by
  have hend : ∀ {r}, m.Yields a b r → Eval.expr 2 (.binary (.literal (.int a) 0) ⟨.mark m, "", 0⟩
      (.literal (.int b) 0)) untouched = Action.ofExcept 0 r untouched :=
    fun hr => hr _ _ _ 1 _ _ _ rfl rfl rfl
  have hsame : Action.ofExcept 0 r untouched = Action.ofExcept 0 r' untouched :=
    (hend h).symm.trans (hend h')
  cases r <;> cases r' <;> cases hsame <;> rfl

/-- An operator that yields a number for every divisor but zero fails for zero only. -/
theorem Mark.yields_divideByZero_iff {m : Mark} {a b c : Int64}
    (h : Operator.onInts m a b = some (if b = 0 then .error .divideByZero else .ok (.int c))) :
    m.Yields a b (.error .divideByZero) ↔ b = 0 := by
  constructor
  · intro hfails
    by_contra hb
    rw [if_neg hb] at h
    cases hfails.unique (yields_of_onInts h)
  · intro hb
    rw [if_pos hb] at h
    exact yields_of_onInts h

theorem Mark.yields_of_divisor_ne_zero {m : Mark} {a b c : Int64}
    (h : Operator.onInts m a b = some (if b = 0 then .error .divideByZero else .ok (.int c)))
    (hb : b ≠ 0) : m.Yields a b (.ok (.int c)) := by
  rw [if_neg hb] at h
  exact yields_of_onInts h

theorem Mark.yields_number_or_divideByZero {m : Mark} {a b c : Int64}
    (h : Operator.onInts m a b = some (if b = 0 then .error .divideByZero else .ok (.int c))) :
    (∃ d, m.Yields a b (.ok (.int d))) ∨ b = 0 ∧ m.Yields a b (.error .divideByZero) := by
  by_cases hb : b = 0
  · exact .inr ⟨hb, (yields_divideByZero_iff h).mpr hb⟩
  · exact .inl ⟨c, yields_of_divisor_ne_zero h hb⟩

theorem Mark.yieldsUnary_minus (a : Int64) : Mark.minus.YieldsUnary a (.ok (.int (-a))) := by
  intro op operand n s s₁ hop hoperand
  have hunary : Operator.unary op (.int a) = .ok (.int (-a)) := by
    unfold Operator.unary
    rw [hop]
  rw [Eval.expr, Action.bind_of_done hoperand, hunary]

theorem Builtin.yields_abs (a : Int64) : Builtin.abs.Yields a (.ok (.int a.abs)) := by
  intro callee paren args n s s₁ s₂ hcallee hargs
  rw [Eval.expr, Action.bind_of_done hcallee, Action.bind_of_done hargs]
  rfl

/-- **Whole numbers are computed modulo 2^64, and division goes toward zero.** For all whole
numbers: a sum, a difference, a product, a negated number and a magnitude are the one number of 64
bits that is congruent to the exact result. Division and remainder fail exactly if the divisor is
zero. Otherwise quotient times divisor plus remainder, as it is evaluated, is the dividend; the
remainder is smaller in magnitude than the divisor and is zero or has the sign of the dividend; and
the quotient is the exact one cut off toward zero, except for the smallest number divided by -1,
which gives that number and the remainder zero. Apart from a division by zero, evaluation ends with
a number for all operands. -/
theorem whole_number_arithmetic (a b : Int64) :
    (∃ c, Mark.plus.Yields a b (.ok (.int c)) ∧ Wraps (a.toInt + b.toInt) c) ∧
    (∃ c, Mark.minus.Yields a b (.ok (.int c)) ∧ Wraps (a.toInt - b.toInt) c) ∧
    (∃ c, Mark.star.Yields a b (.ok (.int c)) ∧ Wraps (a.toInt * b.toInt) c) ∧
    (∃ c, Mark.minus.YieldsUnary a (.ok (.int c)) ∧ Wraps (-a.toInt) c) ∧
    (∃ c, Builtin.abs.Yields a (.ok (.int c)) ∧ Wraps |a.toInt| c) ∧
    (Mark.slash.Yields a b (.error .divideByZero) ↔ b = 0) ∧
    (Mark.percent.Yields a b (.error .divideByZero) ↔ b = 0) ∧
    (b ≠ 0 → ∃ q r p,
      Mark.slash.Yields a b (.ok (.int q)) ∧ Mark.percent.Yields a b (.ok (.int r)) ∧
      Mark.star.Yields q b (.ok (.int p)) ∧ Mark.plus.Yields p r (.ok (.int a)) ∧
      |r.toInt| < |b.toInt| ∧ (r = 0 ∨ r.toInt.sign = a.toInt.sign) ∧
      (a = Int64.minValue ∧ b = -1 → q = Int64.minValue ∧ r = 0) ∧
      (¬ (a = Int64.minValue ∧ b = -1) → q.toInt = a.toInt.tdiv b.toInt)) ∧
    ∀ m ∈ [Mark.plus, Mark.minus, Mark.star, Mark.slash, Mark.percent],
      (∃ c, m.Yields a b (.ok (.int c))) ∨ b = 0 ∧ m.Yields a b (.error .divideByZero) := by
  have hplus : ∀ x y : Int64, Mark.plus.Yields x y (.ok (.int (x + y))) := fun _ _ =>
    Mark.yields_of_onInts rfl
  have hminus : Mark.minus.Yields a b (.ok (.int (a - b))) := Mark.yields_of_onInts rfl
  have hstar : ∀ x y : Int64, Mark.star.Yields x y (.ok (.int (x * y))) := fun _ _ =>
    Mark.yields_of_onInts rfl
  refine ⟨⟨_, hplus a b, wraps_add a b⟩, ⟨_, hminus, wraps_sub a b⟩, ⟨_, hstar a b, wraps_mul a b⟩,
    ⟨_, Mark.yieldsUnary_minus a, wraps_neg a⟩, ⟨_, Builtin.yields_abs a, wraps_abs a⟩,
    Mark.yields_divideByZero_iff rfl, Mark.yields_divideByZero_iff rfl, fun hb => ?_,
    fun m hm => ?_⟩
  · have hrecombined := hplus (a / b * b) (a % b)
    rw [quotient_mul_add_remainder] at hrecombined
    refine ⟨a / b, a % b, a / b * b, Mark.yields_of_divisor_ne_zero rfl hb,
      Mark.yields_of_divisor_ne_zero rfl hb, hstar _ b, hrecombined, abs_remainder_lt hb,
      remainder_eq_zero_or_sign_eq a b, ?_, toInt_quotient⟩
    rintro ⟨rfl, rfl⟩
    exact ⟨Int64.minValue_div_neg_one, by decide⟩
  · simp only [List.mem_cons, List.not_mem_nil, or_false] at hm
    rcases hm with rfl | rfl | rfl | rfl | rfl
    · exact .inl ⟨_, hplus a b⟩
    · exact .inl ⟨_, hminus⟩
    · exact .inl ⟨_, hstar a b⟩
    · exact Mark.yields_number_or_divideByZero rfl
    · exact Mark.yields_number_or_divideByZero rfl

/-- The quotient that does not fit: a program that divides the smallest number by -1 goes on with
the smallest number. -/
theorem whole_number_arithmetic_smallest :
    (-1 : Int64) ≠ 0 ∧
    Eval.expr 2 (.binary (.literal (.int Int64.minValue) 1) ⟨.mark .slash, "/", 1⟩
      (.literal (.int (-1)) 1)) untouched = .done (.int Int64.minValue) untouched ∧
    Eval.expr 2 (.binary (.literal (.int Int64.minValue) 1) ⟨.mark .percent, "%", 1⟩
      (.literal (.int (-1)) 1)) untouched = .done (.int 0) untouched := by
  have hdivisor : (-1 : Int64) ≠ 0 := by decide
  obtain ⟨-, -, -, -, -, -, -, hdivision, -⟩ := whole_number_arithmetic Int64.minValue (-1)
  obtain ⟨q, r, -, hslash, hpercent, -, -, -, -, hwraps, -⟩ := hdivision hdivisor
  obtain ⟨rfl, rfl⟩ := hwraps ⟨rfl, rfl⟩
  exact ⟨hdivisor, hslash _ _ _ 1 _ _ _ rfl rfl rfl, hpercent _ _ _ 1 _ _ _ rfl rfl rfl⟩

end Sugod
