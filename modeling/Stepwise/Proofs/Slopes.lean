import Mathlib.Analysis.Calculus.Deriv.Polynomial
import Mathlib.Algebra.Order.Interval.Finset.SuccPred
import Mathlib.Topology.Algebra.Module.ModuleTopology
import Stepwise.Objective
import Stepwise.Proofs.Differences

/-!
# Gradients by central differences, for functions that are polynomials along the axes

A central difference quotient compares a function at opposite points, so of a polynomial it sees
only the odd coefficients: it is the slope and, with even powers of the step, all other odd
coefficients (`Stepwise.oddSlope`). Up to degree two it is the slope itself, in degree three the
error is the cubic coefficient times the square of the step.

A gradient by central differences asks, for each of its components, for two values of the function
on one axis, at the point as it is given: no component depends on what the function is anywhere
else. So a function only has to be a polynomial on the axes through the point, and what is said of a
component only needs its own axis (`Stepwise.complete_gradient_polynomial`).
-/

namespace Stepwise

open Polynomial

/-! ### One axis -/

section Axis

variable (q : ℝ[X]) (h : ℝ)

/-- The slope of a polynomial at zero and, with even powers of `h`, all other odd coefficients. -/
noncomputable def oddSlope : ℝ :=
  q.coeff 1 + ∑ m ∈ Finset.Icc 1 (q.natDegree / 2), q.coeff (2 * m + 1) * h ^ (2 * m)

/-- **Between opposite points the even powers cancel.** -/
theorem eval_sub_eval_neg : q.eval h - q.eval (-h) = 2 * h * oddSlope q h := by
  have hsum (n : ℕ) : ∑ k ∈ Finset.range (2 * n), q.coeff k * h ^ k -
      ∑ k ∈ Finset.range (2 * n), q.coeff k * (-h) ^ k =
        2 * h * ∑ m ∈ Finset.range n, q.coeff (2 * m + 1) * h ^ (2 * m) := by
    induction n with
    | zero => simp
    | succ n ih =>
      have heven : (-h) ^ (2 * n) = h ^ (2 * n) := by rw [pow_mul, neg_sq, ← pow_mul]
      rw [Nat.mul_succ]
      simp only [Finset.sum_range_succ, mul_add, ← ih, pow_succ _ (2 * n), heven]
      ring
  have hlt : q.natDegree < 2 * (q.natDegree / 2 + 1) := by omega
  rw [eval_eq_sum_range' hlt, eval_eq_sum_range' hlt, hsum, oddSlope, Finset.range_eq_Ico,
    Finset.sum_eq_sum_Ico_succ_bot (Nat.succ_pos _), Nat.succ_eq_add_one,
    Finset.Ico_add_one_right_eq_Icc, mul_zero, pow_zero, mul_one]

variable {q h}

/-- A difference quotient at zero. -/
theorem quotient_eval (hh : h ≠ 0) : (q.eval h - q.eval (-h)) / (2 * h) = oddSlope q h := by
  rw [eval_sub_eval_neg, mul_div_cancel_left₀ _ (mul_ne_zero two_ne_zero hh)]

/-- Up to degree two there is no other odd coefficient. -/
theorem oddSlope_of_natDegree_le_two (hq : q.natDegree ≤ 2) : oddSlope q h = q.coeff 1 := by
  rw [oddSlope, add_eq_left]
  refine Finset.sum_eq_zero fun m hm => ?_
  have hm := (Finset.mem_Icc.mp hm).1
  rw [coeff_eq_zero_of_natDegree_lt (by omega), zero_mul]

/-- Up to degree three there is one. -/
theorem oddSlope_of_natDegree_le_three (hq : q.natDegree ≤ 3) :
    oddSlope q h = q.coeff 1 + q.coeff 3 * h ^ 2 := by
  have hhalf : q.natDegree / 2 ≤ 1 := by omega
  rw [oddSlope]
  rcases Nat.le_one_iff_eq_zero_or_eq_one.mp hhalf with hzero | hone
  · rw [hzero, coeff_eq_zero_of_natDegree_lt (show q.natDegree < 3 by omega)]
    simp
  · rw [hone]
    simp

/-- What is added to the slope is a multiple of the square of the step. -/
theorem oddSlope_sub_coeff : oddSlope q h - q.coeff 1 =
    h ^ 2 * ∑ m ∈ Finset.Icc 1 (q.natDegree / 2), q.coeff (2 * m + 1) * h ^ (2 * (m - 1)) := by
  rw [oddSlope, add_sub_cancel_left, Finset.mul_sum]
  refine Finset.sum_congr rfl fun m hm => ?_
  have hm := (Finset.mem_Icc.mp hm).1
  have hpow : h ^ (2 * m) = h ^ 2 * h ^ (2 * (m - 1)) := by
    rw [← pow_add]
    congr 1
    omega
  rw [hpow]
  ring

theorem hasDerivAt_zero (q : ℝ[X]) : HasDerivAt (fun t => q.eval t) (q.coeff 1) 0 := by
  have hslope : q.derivative.eval 0 = q.coeff 1 := by
    rw [← coeff_zero_eq_eval_zero, coeff_derivative]
    simp
  exact hslope ▸ q.hasDerivAt 0

end Axis

/-! ### The gradient -/

section Gradient

variable {n : ℕ} {f : Objective ℝ} {x : Fin n → ℝ} {p : Fin n → ℝ[X]} {h : ℝ}

/-- A gradient that is missing comes from the values. -/
theorem gradient_complete (hf : f.gradient? = none) (h : ℝ) :
    (f.complete h).gradient = centralGradient f.value h := by
  rw [Objective.complete, hf]
  rfl

/-- **A gradient by central differences has exactly the even-order errors.** In exact arithmetic,
where the values of an objective along every axis through a point are those of a polynomial, the
objective without a gradient is completed by one whose components are the odd slopes of these
polynomials. The slope of a polynomial is the partial derivative; up to degree two the component is
equal to it, and otherwise it is off by a multiple of the square of the step. A component is the same
for any other objective that agrees one step forward and one step back on its own axis. -/
theorem complete_gradient_polynomial (hf : f.gradient? = none)
    (hp : ∀ i t, f.value (List.ofFn (x + t • Pi.single i 1)) = .ok ((p i).eval t)) (hh : h ≠ 0) :
    (f.complete h).gradient (List.ofFn x) = .ok (List.ofFn fun i => oddSlope (p i) h) ∧
    ∀ i, HasDerivAt (fun t => (p i).eval t) ((p i).coeff 1) 0 ∧
      ((p i).natDegree ≤ 2 → oddSlope (p i) h = (p i).coeff 1) ∧
      oddSlope (p i) h - (p i).coeff 1 = h ^ 2 *
        ∑ m ∈ Finset.Icc 1 ((p i).natDegree / 2), (p i).coeff (2 * m + 1) * h ^ (2 * (m - 1)) ∧
      ∀ (g : Objective ℝ) (gradient : Vec ℝ), g.gradient? = none →
        g.value (List.ofFn (x + h • Pi.single i 1)) = f.value (List.ofFn (x + h • Pi.single i 1)) →
        g.value (List.ofFn (x - h • Pi.single i 1)) = f.value (List.ofFn (x - h • Pi.single i 1)) →
        (g.complete h).gradient (List.ofFn x) = .ok gradient →
        gradient[(i : ℕ)]? = some (oddSlope (p i) h) := by
  have hforward (i : Fin n) : f.value (List.ofFn (x + h • Pi.single i 1)) = .ok ((p i).eval h) :=
    hp i h
  have hbackward (i : Fin n) : f.value (List.ofFn (x - h • Pi.single i 1)) =
      .ok ((p i).eval (-h)) := by
    rw [← hp i (-h), neg_smul, ← sub_eq_add_neg]
  refine ⟨?_, fun i => ⟨hasDerivAt_zero _, oddSlope_of_natDegree_le_two, oddSlope_sub_coeff, ?_⟩⟩
  · rw [gradient_complete hf, centralGradient_of_sides hforward hbackward]
    simp only [quotient_eval hh]
  · intro g gradient hg hgforward hgbackward hgradient
    have horigin : (List.ofFn x)[(i : ℕ)]? = some (x i) := by simp
    rw [gradient_complete hg] at hgradient
    obtain ⟨forward, backward, hsides, hget⟩ := getElem?_of_centralGradient hgradient horigin
    rw [twoSided_ofFn (hgforward.trans (hforward i)) (hgbackward.trans (hbackward i))] at hsides
    obtain ⟨rfl, rfl⟩ := Prod.mk.inj (Except.ok.inj hsides)
    rw [hget, Scalar.ofNat_real, Nat.cast_ofNat, quotient_eval hh]

/-- The cube of the first component, known by its values. -/
def firstCubed : Objective ℝ := { value := fun v => do
  let a ← Vec.component v 0
  return a * a * a }

/-- On the axes through `(2, 5, -1)` it is a cubic polynomial or constant. -/
theorem firstCubed_value (i : Fin 3) (t : ℝ) :
    firstCubed.value (List.ofFn (![2, 5, -1] + t • Pi.single i 1)) =
      .ok (((![(X + C 2) ^ 3, C 8, C 8] : Fin 3 → ℝ[X]) i).eval t) := by
  fin_cases i
  · simp [firstCubed, Vec.component, pow_succ, add_comm]
  · norm_num [firstCubed, Vec.component]
  · norm_num [firstCubed, Vec.component]

/-- The cubic term shows in the component of its own axis, and the other components are exact. -/
theorem complete_gradient_polynomial_cube :
    (firstCubed.complete (1 / 2)).gradient (List.ofFn ![2, 5, -1]) =
      .ok [12 + (1 / 2) ^ 2, 0, 0] ∧ HasDerivAt (fun t : ℝ => (t + 2) ^ 3) 12 0 := by
  obtain ⟨hgradient, hcomponents⟩ :=
    complete_gradient_polynomial (f := firstCubed) rfl firstCubed_value (h := 1 / 2) (by norm_num)
  have hcoeff (k : ℕ) : ((X + C 2 : ℝ[X]) ^ 3).coeff k = 2 ^ (3 - k) * Nat.choose 3 k :=
    coeff_X_add_C_pow 2 3 k
  have hcubic : oddSlope ((X + C 2) ^ 3) (1 / 2) = 12 + (1 / 2) ^ 2 := by
    rw [oddSlope_of_natDegree_le_three (by simp), hcoeff, hcoeff]
    norm_num
  have hconst (h : ℝ) : oddSlope (C 8) h = 0 := by simp [oddSlope]
  refine ⟨hgradient.trans ?_, ?_⟩
  · rw [List.ofFn_succ, Matrix.cons_val_zero, hcubic]
    simp [hconst]
  · have hslope := (hcomponents 0).1
    rw [Matrix.cons_val_zero, hcoeff] at hslope
    norm_num at hslope
    exact hslope

end Gradient

end Stepwise
