import Mathlib.Algebra.MvPolynomial.PDeriv
import Mathlib.LinearAlgebra.Matrix.Symmetric
import Mathlib.RingTheory.Polynomial.Basic
import Stepwise.Proofs.Linear.Matrices
import Stepwise.Proofs.Slopes

/-!
# Hessians by central differences

An objective that is known by its values only has its Hessian from differences of differences:
every entry is a difference quotient along one axis of the difference quotient along another. In
exact arithmetic the order of the two does not matter, since both compare the same four values
(`Stepwise.axisQuotient_comm`), and the Hessian is symmetric whatever the function is.

On polynomials of degree at most three a difference quotient along an axis is again a polynomial: the
partial derivative and a multiple of the third partial derivative, which is constant
(`Stepwise.axisQuotient_eval`). The next quotient does not see the constant, and what it would add
itself comes from a fourth derivative, so the entries are the second partial derivatives
(`Stepwise.complete_hessian`).
-/

namespace Stepwise

open MvPolynomial

variable {n : ℕ}

/-! ### Partial derivatives -/

section Partial

variable (p : MvPolynomial (Fin n) ℝ) (u : Fin n → ℝ) (i : Fin n)

/-- The coordinates on an axis through a point. -/
noncomputable def axis (j : Fin n) : Polynomial ℝ :=
  Polynomial.C ((Pi.single i 1 : Fin n → ℝ) j) * Polynomial.X + Polynomial.C (u j)

/-- A polynomial along an axis through a point. -/
noncomputable def alongAxis : Polynomial ℝ := aeval (axis u i) p

theorem eval_alongAxis (t : ℝ) : (alongAxis p u i).eval t = eval (u + t • Pi.single i 1) p := by
  have hpoint : (fun j => Polynomial.aeval t (axis u i j)) = u + t • Pi.single i 1 := by
    funext j
    rw [Polynomial.coe_aeval_eq_eval, axis, Polynomial.eval_add, Polynomial.eval_C_mul,
      Polynomial.eval_X, Polynomial.eval_C, add_comm, mul_comm]
    rfl
  have hcomp := comp_aeval_apply (axis u i) (Polynomial.aeval t) p
  rwa [hpoint, aeval_eq_eval, Polynomial.coe_aeval_eq_eval] at hcomp

/-- Along an axis the derivative is the partial derivative. -/
theorem derivative_alongAxis : (alongAxis p u i).derivative = alongAxis (pderiv i p) u i := by
  induction p using MvPolynomial.induction_on with
  | C a => simp [alongAxis]
  | add p q hp hq =>
    simp only [alongAxis, map_add] at hp hq ⊢
    rw [hp, hq]
  | mul_X p j hp =>
    simp only [alongAxis, map_mul, aeval_X] at hp ⊢
    rw [Polynomial.derivative_mul, hp, pderiv_mul, map_add, map_mul, map_mul, aeval_X, pderiv_X]
    rcases eq_or_ne j i with rfl | hne
    · simp [axis]
    · simp [axis, hne]

theorem natDegree_alongAxis_le : (alongAxis p u i).natDegree ≤ p.totalDegree := by
  have hle := aeval_natDegree_le p le_rfl (axis u i) fun _ => Polynomial.natDegree_linear_le
  rwa [mul_one] at hle

theorem coeff_zero_alongAxis : (alongAxis p u i).coeff 0 = eval u p := by
  rw [Polynomial.coeff_zero_eq_eval_zero, eval_alongAxis, zero_smul, add_zero]

/-- The coefficients along an axis are the higher derivatives over factorials, one after the
other. -/
theorem coeff_succ_alongAxis (m : ℕ) :
    (alongAxis p u i).coeff (m + 1) * (m + 1) = (alongAxis (pderiv i p) u i).coeff m := by
  rw [← derivative_alongAxis, Polynomial.coeff_derivative]

theorem coeff_one_alongAxis : (alongAxis p u i).coeff 1 = eval u (pderiv i p) := by
  have hone := coeff_succ_alongAxis p u i 0
  rwa [coeff_zero_alongAxis, Nat.cast_zero, zero_add, zero_add, mul_one] at hone

/-- The partial derivative is the derivative along the axis. -/
theorem hasDerivAt_pderiv :
    HasDerivAt (fun t : ℝ => eval (u + t • Pi.single i 1) p) (eval u (pderiv i p)) 0 := by
  have hslope := hasDerivAt_zero (alongAxis p u i)
  simpa only [eval_alongAxis, coeff_one_alongAxis] using hslope

theorem coeff_three_alongAxis :
    (alongAxis p u i).coeff 3 = eval u (pderiv i (pderiv i (pderiv i p))) / 6 := by
  have hthree := coeff_succ_alongAxis p u i 2
  have htwo := coeff_succ_alongAxis (pderiv i p) u i 1
  rw [coeff_one_alongAxis] at htwo
  rw [← htwo, ← hthree]
  push_cast
  ring

/-- Differentiation lowers the degree. -/
theorem totalDegree_pderiv_le : (pderiv i p).totalDegree ≤ p.totalDegree - 1 := by
  refine Finset.sup_le fun m hm => ?_
  have hm' : m + Finsupp.single i 1 ∈ p.support := by
    rw [mem_support_iff, coeff_pderiv] at hm
    exact mem_support_iff.mpr (left_ne_zero_of_mul hm)
  have hle := le_totalDegree hm'
  rw [Finsupp.sum_add_index' (fun _ => rfl) (fun _ _ _ => rfl), Finsupp.sum_single_index rfl] at hle
  omega

variable {p}

theorem pderiv_eq_zero (hp : p.totalDegree = 0) : pderiv i p = 0 := by
  rw [totalDegree_eq_zero_iff_eq_C.mp hp, pderiv_C]

/-- A cubic polynomial has no fourth derivatives. -/
theorem pderiv_fourth_eq_zero (hp : p.totalDegree ≤ 3) (a b c d : Fin n) :
    pderiv a (pderiv b (pderiv c (pderiv d p))) = 0 := by
  have hone := totalDegree_pderiv_le p d
  have htwo := totalDegree_pderiv_le (pderiv d p) c
  have hthree := totalDegree_pderiv_le (pderiv c (pderiv d p)) b
  exact pderiv_eq_zero a (by omega)

end Partial

/-! ### Difference quotients -/

section Quotients

variable {h : ℝ} {i j : Fin n}

/-- The difference quotient of a function along an axis, between points `h + h` apart. -/
noncomputable def axisQuotient (h : ℝ) (i : Fin n) (F : (Fin n → ℝ) → ℝ) (u : Fin n → ℝ) : ℝ :=
  (F (u + h • Pi.single i 1) - F (u - h • Pi.single i 1)) / (h + h)

/-- **Difference quotients along two axes can be formed in any order.** -/
theorem axisQuotient_comm (h : ℝ) (i j : Fin n) (F : (Fin n → ℝ) → ℝ) :
    axisQuotient h i (axisQuotient h j F) = axisQuotient h j (axisQuotient h i F) := by
  funext u
  simp only [axisQuotient]
  generalize h • (Pi.single i 1 : Fin n → ℝ) = a
  generalize h • (Pi.single j 1 : Fin n → ℝ) = b
  rw [add_right_comm u a b, sub_right_comm u a b, ← sub_add_eq_add_sub u b a,
    sub_add_eq_add_sub u a b]
  ring

/-- **A difference quotient of a cubic polynomial** is its partial derivative and, times a multiple of
the square of the step, the third one. -/
theorem axisQuotient_eval (hh : h ≠ 0) {p : MvPolynomial (Fin n) ℝ} (hp : p.totalDegree ≤ 3) :
    axisQuotient h i (fun u => eval u p) =
      fun u => eval u (pderiv i p + C (h ^ 2 / 6) * pderiv i (pderiv i (pderiv i p))) := by
  funext u
  have hquotient := quotient_eval (q := alongAxis p u i) hh
  rw [oddSlope_of_natDegree_le_three ((natDegree_alongAxis_le p u i).trans hp), eval_alongAxis,
    eval_alongAxis, neg_smul, ← sub_eq_add_neg, coeff_one_alongAxis,
    coeff_three_alongAxis] at hquotient
  rw [axisQuotient, ← two_mul, hquotient, eval_add, eval_mul, eval_C]
  ring

/-- **Two difference quotients of a cubic polynomial are two partial derivatives.** -/
theorem axisQuotient_axisQuotient_eval (hh : h ≠ 0) {p : MvPolynomial (Fin n) ℝ}
    (hp : p.totalDegree ≤ 3) (u : Fin n → ℝ) :
    axisQuotient h i (axisQuotient h j fun u => eval u p) u = eval u (pderiv i (pderiv j p)) := by
  have hone := totalDegree_pderiv_le p j
  have htwo := totalDegree_pderiv_le (pderiv j p) j
  have hthree := totalDegree_pderiv_le (pderiv j (pderiv j p)) j
  have hdegree : (pderiv j p + C (h ^ 2 / 6) * pderiv j (pderiv j (pderiv j p))).totalDegree ≤ 3 := by
    refine (totalDegree_add _ _).trans (max_le (by omega) ?_)
    refine (totalDegree_mul _ _).trans ?_
    rw [totalDegree_C]
    omega
  rw [axisQuotient_eval hh hp, axisQuotient_eval hh hdegree]
  simp only [map_add, pderiv_C_mul, pderiv_fourth_eq_zero hp, mul_zero, add_zero]

end Quotients

/-! ### The Hessian -/

section Hessian

variable {f : Objective ℝ} {F : (Fin n → ℝ) → ℝ}

/-- The columns of a derivative by central differences are the difference quotients of the field. -/
theorem centralJacobian_ofFn {g : Vec ℝ → Except Fault (Vec ℝ)} {G : (Fin n → ℝ) → Fin n → ℝ}
    (hg : ∀ u, g (List.ofFn u) = .ok (List.ofFn (G u))) (h : ℝ) (x : Fin n → ℝ) :
    centralJacobian g h (List.ofFn x) =
      .ok (Mat.ofMatrix (Matrix.of fun i j => axisQuotient h j (fun u => G u i) x)) := by
  simp only [centralJacobian, alongAxes_eq]
  rw [zipIdx_ofFn,
    mapM_ofFn (r := fun j => List.ofFn fun i => axisQuotient h j (fun u => G u i) x)]
  · rw [ok_bind, List.length_ofFn, Mat.ofColumns_ofFn]
    rfl
  · intro j
    have hcolumn : (2 * h)⁻¹ • (G (x + h • Pi.single j 1) - G (x - h • Pi.single j 1)) =
        fun i => axisQuotient h j (fun u => G u i) x := by
      funext i
      rw [axisQuotient, ← two_mul]
      exact (div_eq_inv_mul _ _).symm
    dsimp only
    rw [twoSided_ofFn (hg _) (hg _), ok_bind]
    dsimp only
    rw [Vec.sub_ofFn, ok_bind, Vec.divide_ofFn, Scalar.ofNat_real, Nat.cast_ofNat, hcolumn,
      if_pos (by simp)]
    rfl

/-- A Hessian that is missing comes from the gradient, wherever that came from. -/
theorem hessian_complete (hf : f.hessian? = none) (h : ℝ) :
    (f.complete h).hessian = centralJacobian (f.complete h).gradient h := by
  rw [Objective.complete, hf]
  rfl

/-- An objective known by its values has the difference quotients of difference quotients. -/
theorem complete_hessian_ofFn (hgradient : f.gradient? = none) (hhessian : f.hessian? = none)
    (hF : ∀ u, f.value (List.ofFn u) = .ok (F u)) (h : ℝ) (x : Fin n → ℝ) :
    (f.complete h).hessian (List.ofFn x) =
      .ok (Mat.ofMatrix (Matrix.of fun i j => axisQuotient h j (axisQuotient h i F) x)) := by
  have hquotients (u : Fin n → ℝ) :
      (f.complete h).gradient (List.ofFn u) = .ok (List.ofFn fun i => axisQuotient h i F u) := by
    rw [gradient_complete hgradient, centralGradient_ofFn hF]
    simp only [axisQuotient, two_mul]
  rw [hessian_complete hhessian]
  exact centralJacobian_ofFn hquotients h x

/-- **The Hessian of an objective known by its values** is symmetric, whatever the function is. In
exact arithmetic it is the Hessian of the function wherever that is a polynomial of degree at most
three, for every step but zero: the entries are the second partial derivatives. -/
theorem complete_hessian (hgradient : f.gradient? = none) (hhessian : f.hessian? = none)
    (hF : ∀ u, f.value (List.ofFn u) = .ok (F u)) (h : ℝ) (x : Fin n → ℝ) :
    ∃ H : Matrix (Fin n) (Fin n) ℝ,
      (f.complete h).hessian (List.ofFn x) = .ok (Mat.ofMatrix H) ∧ H.IsSymm ∧
      (h ≠ 0 → ∀ p : MvPolynomial (Fin n) ℝ, p.totalDegree ≤ 3 → (∀ u, F u = eval u p) →
        ∀ i j, H i j = eval x (pderiv i (pderiv j p)) ∧
          HasDerivAt (fun s : ℝ => deriv (fun t : ℝ =>
            F (x + s • Pi.single i 1 + t • Pi.single j 1)) 0) (H i j) 0) := by
  refine ⟨_, complete_hessian_ofFn hgradient hhessian hF h x, ?_, ?_⟩
  · refine Matrix.IsSymm.ext fun i j => ?_
    exact congrFun (axisQuotient_comm h i j F) x
  · intro hh p hp hFp i j
    obtain rfl : F = fun u => eval u p := funext hFp
    have hentry : axisQuotient h j (axisQuotient h i fun u => eval u p) x =
        eval x (pderiv i (pderiv j p)) := by
      rw [axisQuotient_comm, axisQuotient_axisQuotient_eval hh hp]
    rw [Matrix.of_apply, hentry]
    refine ⟨rfl, ?_⟩
    simp only [(hasDerivAt_pderiv p _ j).deriv]
    exact hasDerivAt_pderiv (pderiv j p) x i

/-- The square of the first component times the second, known by its values. -/
def squareTimes : Objective ℝ := { value := fun v => do
  let a ← Vec.component v 0
  let b ← Vec.component v 1
  return a * a * b }

/-- Half a step away the mixed entries are still exact. -/
theorem complete_hessian_squareTimes :
    (squareTimes.complete (1 / 2)).hessian (List.ofFn ![1, 2]) =
      .ok (Mat.ofMatrix !![4, 2; 2, 0]) := by
  have hvalue (u : Fin 2 → ℝ) : squareTimes.value (List.ofFn u) = .ok (u 0 * u 0 * u 1) := by
    simp [squareTimes, Vec.component]
  obtain ⟨H, hH, -, hcubic⟩ :=
    complete_hessian (f := squareTimes) rfl rfl hvalue (1 / 2) ![1, 2]
  have hdegree : (X 0 * X 0 * X 1 : MvPolynomial (Fin 2) ℝ).totalDegree ≤ 3 := by
    refine (totalDegree_mul _ _).trans (Nat.add_le_add (totalDegree_mul _ _) le_rfl |>.trans ?_)
    simp only [totalDegree_X, le_refl]
  have hentries := hcubic (by norm_num) _ hdegree fun u => by simp
  rw [hH]
  congr 2
  ext i j
  rw [(hentries i j).1]
  fin_cases i <;> fin_cases j <;> norm_num [pderiv_X]

end Hessian

end Stepwise
