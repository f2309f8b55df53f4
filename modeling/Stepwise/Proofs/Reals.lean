import Mathlib.Analysis.Real.Sqrt
import Mathlib.Algebra.Order.Floor.Ring
import Stepwise.Scalar

/-!
# Exact arithmetic

The real numbers are scalars on which nothing is rounded and nothing is undefined:
every number is finite, and of two numbers one is not above the other. A statement about
a method over the real numbers is a statement about the method in exact arithmetic.

The operations of `Stepwise.Scalar` are the operations of the field, so that a method
over the real numbers reads as the formulas it stands for. The lemmas below translate
the rest: numerals, quotients of numerals and the constants made of them.
-/

namespace Stepwise

/-- The real numbers as scalars. -/
noncomputable instance : Scalar ℝ where
  beq a b := decide (a = b)
  ofNat n := n
  sqrt := Real.sqrt
  abs a := |a|
  floor a := ⌊a⌋
  isFinite _ := true
  decLt _ _ := Classical.propDecidable _
  decLe _ _ := Classical.propDecidable _

namespace Scalar

@[simp] theorem ofNat_real (n : ℕ) : (ofNat n : ℝ) = n := rfl

@[simp] theorem ratio_real (m n : ℕ) : (ratio m n : ℝ) = m / n := rfl

@[simp] theorem sqrt_real (a : ℝ) : sqrt a = √a := rfl

@[simp] theorem abs_real (a : ℝ) : abs a = |a| := rfl

@[simp] theorem isFinite_real (a : ℝ) : isFinite a = true := rfl

@[simp] theorem beq_real (a b : ℝ) : (a == b) = decide (a = b) := rfl

end Scalar

end Stepwise
