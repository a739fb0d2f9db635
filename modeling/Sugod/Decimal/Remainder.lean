import Sugod.Decimal.Binary

/-!
# The exact remainder of two doubles

`remainder x y` is `x - n · y` for the whole number `n` that is the quotient without its fraction.
It is exact, is smaller than `y` in magnitude and has the sign of `x`. In the common scale of
`Binary` it is the remainder of two natural numbers, and the result needs no more bits than the
operands, so encoding it loses nothing.
-/

set_option autoImplicit false

namespace Sugod.Decimal

/-- The encoding of `n · 2^(-1074)` for an `n` whose leading 53 bits are all that is not zero. -/
def exactWord (n : Nat) : Nat :=
  let s := n.log2 - 52
  Binary.magnitudeWord (n / Nat.pow 2 s) s

/-- The remainder of a truncated division. It is a NaN if an operand is one, if the dividend is
infinite or if the divisor is zero; an infinite divisor leaves the dividend. -/
def remainder (x y : Float) : Float :=
  match Binary.ofFloat x, Binary.ofFloat y with
  | .finite negative m s, .finite _ m' s' =>
    if m' = 0 then 0.0 / 0.0
    else Binary.floatOfWord negative (exactWord (m * Nat.pow 2 s % (m' * Nat.pow 2 s')))
  | .finite _ _ _, .infinite _ => x
  | _, _ => 0.0 / 0.0

end Sugod.Decimal
