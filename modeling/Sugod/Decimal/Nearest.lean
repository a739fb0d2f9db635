import Sugod.Decimal.Binary

/-!
# The double nearest to a decimal

`nearest num den` is the encoding of the double nearest to `num / den`; of two equally near ones
it is the one with an even last digit, and what is too large is infinity. A decimal
`d · 10^e` is such a quotient; one that is so large or so small that the answer is infinity or zero
anyway is settled before any power is computed.
-/

set_option autoImplicit false

namespace Sugod.Decimal

/-- The whole number nearest to `num / den`; a half goes to the even neighbour. -/
def roundEven (num den : Nat) : Nat :=
  let q := num / den
  let r := num % den
  if 2 * r < den ∨ (2 * r = den ∧ q % 2 = 0) then q else q + 1

/-- The encoding of the double nearest to `num / den`. -/
def nearest (num den : Nat) : Nat :=
  let scaled := num * Nat.pow 2 1074
  let s := (scaled / den).log2 - 52
  Binary.magnitudeWord (roundEven scaled (den * Nat.pow 2 s)) s

/-- The encoding of the double nearest to `d · 10^e`. A decimal of at least `10^400` is infinite,
one below `10^(-400)` is zero. -/
def nearestDecimal (d : Nat) (e : Int) : Nat :=
  if d = 0 then 0
  else if 0 ≤ e then
    if 400 < e then Binary.infinityWord else nearest (d * Nat.pow 10 e.natAbs) 1
  else
    if 400 + (d.log2 + 1) < e.natAbs then 0 else nearest d (Nat.pow 10 e.natAbs)

end Sugod.Decimal
