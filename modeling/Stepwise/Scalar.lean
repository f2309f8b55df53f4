/-!
# The numbers a method runs on

Every method of this library is written once, over an arbitrary type of scalars.
It runs on double-precision numbers, and it is reasoned about over whichever
scalars a statement is about: over doubles when rounding and undefined values
matter, over an exact field when they do not.

`Stepwise.Scalar` lists what a method may ask of its numbers. The comparisons are
the scalars' own: nothing here says that a failed `a < b` gives `b ≤ a`, since on
doubles it does not. Every constant is a numeral or a quotient of two numerals, so
that it denotes the same number over every kind of scalar, up to one rounding.
-/

namespace Stepwise

/-- What a method may ask of its numbers: the field operations, comparisons that can
be decided, numerals, square root, absolute value, rounding down, and whether a
number is finite. -/
class Scalar (R : Type) extends Add R, Sub R, Mul R, Div R, Neg R, LT R, LE R, BEq R where
  /-- The number a numeral stands for. -/
  ofNat : Nat → R
  /-- The square root. -/
  sqrt : R → R
  /-- The absolute value. -/
  abs : R → R
  /-- The greatest whole number that is not above a number. -/
  floor : R → R
  /-- Whether a number is neither infinite nor undefined. -/
  isFinite : R → Bool
  /-- Strict comparison can be decided. -/
  decLt : (a b : R) → Decidable (a < b)
  /-- Comparison can be decided. -/
  decLe : (a b : R) → Decidable (a ≤ b)

namespace Scalar

variable {R : Type} [Scalar R]

instance (priority := low) (a b : R) : Decidable (a < b) := decLt a b

instance (priority := low) (a b : R) : Decidable (a ≤ b) := decLe a b

/-- The quotient of two numerals. -/
def ratio (m n : Nat) : R := ofNat m / ofNat n

/-! ### Small constants -/

/-- The gap between `1` and the next double, `2⁻⁵²`. -/
def doubleGap : R := ratio 1 (Nat.pow 2 52)

/-- The gap between `1` and the next single-precision number, `2⁻²³`. -/
def singleGap : R := ratio 1 (Nat.pow 2 23)

/-- The least positive double with full precision, `2⁻¹⁰²²`. -/
def leastNormal : R := ratio 1 (Nat.pow 2 1022)

/-- The nearest number between `low` and `high`; an undefined number stays as it
is. -/
def clamp (x low high : R) : R :=
  let y := if x < low then low else x
  if high < y then high else y

end Scalar

/-- Double-precision numbers. -/
instance : Scalar Float where
  ofNat := Float.ofNat
  sqrt := Float.sqrt
  abs := Float.abs
  floor := Float.floor
  isFinite := Float.isFinite
  decLt := inferInstance
  decLe := inferInstance

end Stepwise
