/-!
# Double precision numbers as exact integers

A double is a NaN, an infinity or `m · 2^(s - 1074)` with a sign, where `s` is a natural number
and `m < 2^53`. Normal numbers have `2^52 ≤ m`; numbers with `m < 2^52` have `s = 0`. In this
scale every finite double is a whole multiple of the smallest one, and the encoding of a magnitude
is the plain sum `s · 2^52 + m`, also where a carry has brought `m` up to `2^53`.
-/

set_option autoImplicit false

namespace Sugod.Decimal

/-- An exact reading of a double. `finite neg m s` is `m · 2^(s - 1074)`, negated if `neg`. -/
inductive Binary where
  | nan
  | infinite (negative : Bool)
  | finite (negative : Bool) (m s : Nat)
  deriving DecidableEq

namespace Binary

/-- Reads the 64 bits of a double: one for the sign, eleven for the exponent, 52 for the rest. -/
def ofWord (word : Nat) : Binary :=
  let negative := decide (Nat.pow 2 63 ≤ word)
  let exponent := word / Nat.pow 2 52 % Nat.pow 2 11
  let fraction := word % Nat.pow 2 52
  if exponent = Nat.pow 2 11 - 1 then
    if fraction = 0 then infinite negative else nan
  else if exponent = 0 then finite negative fraction 0
  else finite negative (Nat.pow 2 52 + fraction) (exponent - 1)

/-- The exact reading of a double. -/
def ofFloat (x : Float) : Binary :=
  ofWord x.toBits.toNat

/-- The encoding of the magnitude of infinity. Encodings of finite magnitudes are below it. -/
def infinityWord : Nat :=
  (Nat.pow 2 11 - 1) * Nat.pow 2 52

/-- The encoding of a magnitude `m · 2^(s - 1074)`; a magnitude that is too large is infinite. -/
def magnitudeWord (m s : Nat) : Nat :=
  min (s * Nat.pow 2 52 + m) infinityWord

/-- The double with a sign and the encoding of a magnitude. -/
def floatOfWord (negative : Bool) (magnitude : Nat) : Float :=
  Float.ofBits ((if negative then Nat.pow 2 63 else 0) + magnitude).toUInt64

end Binary

end Sugod.Decimal
