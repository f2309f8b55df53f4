/-!
# The shortest decimal that reads back

A double stands for every number that rounds to it: an interval around its own
value, whose ends belong to it exactly when its significand is even. Among the
decimals in that interval this module picks one with as few digits as possible, and
among those the nearest to the value; of two that are equally near, the larger.

The interval is kept exactly, its ends and the value as numerators over one common
unit. On the grid of multiples of a power of ten it is enough to look at the two
neighbours of the value: if any multiple lies in the interval, one of them does.
Grids are tried from coarse to fine, and seventeen digits always suffice.
-/

namespace Stepwise.Decimal

/-- A decimal: a whole number of units of a power of ten. -/
structure Digits where
  /-- The digits, read as one number. -/
  significand : Nat
  /-- The power of ten they count. -/
  exponent : Int
  deriving Repr, DecidableEq

/-- The numbers that round to one double, measured in units: their lower end, the
double's own value and their upper end are numerators over `unit`. -/
structure Span where
  /-- The lower end. -/
  low : Nat
  /-- The value itself. -/
  value : Nat
  /-- The upper end. -/
  high : Nat
  /-- The common denominator. -/
  unit : Nat
  /-- Whether the ends belong to the interval. -/
  closed : Bool

namespace Span

/-- The interval around `significand · 2 ^ exponent`. Below a power of two the
doubles lie twice as close, and the interval reaches only half as far down. -/
def ofBinary (significand : Nat) (exponent : Int) (closerBelow : Bool) : Span :=
  let grain := Nat.pow 2 (exponent - 2).toNat
  { low := (4 * significand - if closerBelow then 1 else 2) * grain
    value := 4 * significand * grain
    high := (4 * significand + 2) * grain
    unit := Nat.pow 2 (2 - exponent).toNat
    closed := significand % 2 = 0 }

/-- The same interval, measured in units of a power of ten. -/
def inTens (s : Span) (power : Int) : Span :=
  let factor := Nat.pow 10 (-power).toNat
  { s with
    low := s.low * factor
    value := s.value * factor
    high := s.high * factor
    unit := s.unit * Nat.pow 10 power.toNat }

/-- Whether `n` units lie in the interval. -/
def contains (s : Span) (n : Nat) : Bool :=
  if s.closed then s.low ≤ n * s.unit && n * s.unit ≤ s.high
  else s.low < n * s.unit && n * s.unit < s.high

/-- The nearer of the value's two neighbours among those in the interval; of two
equally near the larger. -/
def neighbour? (s : Span) : Option Nat :=
  let below := s.value / s.unit
  match s.contains below, s.contains (below + 1) with
  | true, true => if 2 * (s.value - below * s.unit) < s.unit then some below else some (below + 1)
  | true, false => some below
  | false, true => some (below + 1)
  | false, false => none

/-- The number of decimal digits of a whole number. -/
def digitCount (n : Nat) : Nat := (Nat.toDigits 10 n).length

/-- The power of ten of the value's leading digit. -/
def leadingPower (s : Span) : Int :=
  if s.unit ≤ s.value then (digitCount (s.value / s.unit) : Int) - 1
  else -(digitCount ((s.unit - 1) / s.value) : Int)

/-- The shortest decimal in the interval. -/
def shortest (s : Span) : Digits :=
  let top := s.leadingPower
  let attempt (further : Nat) : Option Digits :=
    let power := top - further
    (s.inTens power).neighbour?.map fun n => ⟨n, power⟩
  ((List.range 17).findSome? attempt).getD ⟨s.value / s.unit, 0⟩

end Span

end Stepwise.Decimal
