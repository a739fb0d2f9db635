import Sugod.Decimal.Numeral
import Sugod.Decimal.Binary

/-!
# The shortest decimal of a double

Every real number in a certain interval around a double rounds to it. The interval ends halfway
to the neighbours and holds its ends exactly if `m` is even. `shortest m s` is a decimal
`c · 10^k` in that interval, with the coarsest grid `10^k` that has a point there; of two grid
points in the interval it is the nearer one, and of two equally near ones the larger.

The value and the two ends of the interval are multiples of a quarter of `2^(s - 1074)`, so that
everything is compared in whole numbers.
-/

set_option autoImplicit false

namespace Sugod.Decimal

/-- A decimal `c · 10^k`. -/
structure Scaled where
  c : Nat
  k : Int
  deriving DecidableEq

/-- The interval of a double, in quarters of `2^(s - 1074)`: the lower end, four times `m`, the
upper end. Below a power of two the doubles lie twice as close. -/
structure Interval where
  low : Nat
  value : Nat
  high : Nat
  closed : Bool

/-- The numbers that round to `m · 2^(s - 1074)`. -/
def interval (m s : Nat) : Interval where
  low := if m = Nat.pow 2 52 ∧ 0 < s then 4 * m - 1 else 4 * m - 2
  value := 4 * m
  high := 4 * m + 2
  closed := m % 2 = 0

/-- One grid of decimals: its step is `step / unit` quarters of `2^(s - 1074)`. -/
structure Grid where
  step : Nat
  unit : Nat

/-- The grid of the multiples of `10^k`. -/
def grid (s : Nat) (k : Int) : Grid where
  step := Nat.pow 2 1076 * (if 0 ≤ k then Nat.pow 10 k.natAbs else 1)
  unit := Nat.pow 2 s * (if 0 ≤ k then 1 else Nat.pow 10 k.natAbs)

/-- Whether a grid point lies in the interval. -/
def Interval.holds (i : Interval) (g : Grid) (c : Nat) : Bool :=
  if i.closed then i.low * g.unit ≤ c * g.step && c * g.step ≤ i.high * g.unit
  else i.low * g.unit < c * g.step && c * g.step < i.high * g.unit

/-- The point of a grid in the interval that is nearest to the value, if there is one. -/
def Interval.point? (i : Interval) (g : Grid) : Option Nat :=
  let exact := i.value * g.unit
  let c := exact / g.step
  let below := i.holds g c
  let above := i.holds g (c + 1)
  if below && (!above || exact - c * g.step < (c + 1) * g.step - exact) then some c
  else if above then some (c + 1)
  else none

/-- Tries the grids `10^k`, `10^(k-1)`, … in turn, `n` of them at most. If none has a point in the
interval the exact value is taken, which is a whole multiple of `10^(-1076)`. -/
def shortestFrom (m s : Nat) : Nat → Int → Scaled
  | 0, _ => ⟨4 * m * Nat.pow 2 s * Nat.pow 5 1076, -1076⟩
  | n + 1, k =>
    match (interval m s).point? (grid s k) with
    | some c => ⟨c, k⟩
    | none => shortestFrom m s n (k - 1)

/-- An exponent whose power of ten is above every number that rounds to `m · 2^(s - 1074)`: the
magnitude is below `2^t` for `t = log2 m + s - 1073`, and `1233 / 4096` is just below the decimal
logarithm of two. -/
def ceilingExponent (m s : Nat) : Int :=
  (((m.log2 + s : Nat) : Int) - 1073) * 1233 / 4096 + 1

/-- The shortest decimal that reads back as `m · 2^(s - 1074)`. -/
def shortest (m s : Nat) : Scaled :=
  shortestFrom m s 1500 (ceilingExponent m s)

/-- A decimal written out without an exponent. Without a fraction there is no point. -/
def Scaled.positional (d : Scaled) : List Char :=
  if 0 ≤ d.k then numeral d.c ++ List.replicate d.k.natAbs '0'
  else
    let places := d.k.natAbs
    let ds := numeral d.c
    let padded := List.replicate (places + 1 - ds.length) '0' ++ ds
    padded.take (padded.length - places) ++ '.' :: padded.drop (padded.length - places)

end Sugod.Decimal
