import Stepwise.Proofs.Descent.Quadratics
import Stepwise.Proofs.Descent.Directions
import Stepwise.Proofs.Descent.Unobserved

/-!
# Newton's method on quadratics

On a quadratic with a positive definite matrix the Newton direction leads straight to the
minimum, and the Newton line search goes just as far (`Stepwise.Descent.exactStep_newton`). So
the descent needs a single step, or none.

There is an exception. The descent looks at the length of the gradient, but the line search looks
at its component along the direction, and stays where it is if that is as good as zero. It may be
so although the gradient is long, and then nothing ever changes: the descent makes the same search
again and again until its rounds are used up. These are all the cases
(`Stepwise.Descent.descend_newton_quadratic`).
-/

namespace Stepwise.Descent

open Matrix

variable {n : ℕ} {A : Matrix (Fin n) (Fin n) ℝ} {b x x₀ : Fin n → ℝ} {objective : Objective ℝ}
  {s : Settings ℝ}

/-! ### The Newton direction -/

/-- The Newton direction at a point. -/
noncomputable def newtonHeading (A : Matrix (Fin n) (Fin n) ℝ) (b x : Fin n → ℝ) : Fin n → ℝ :=
  -(A⁻¹ *ᵥ affine A b x)

theorem mulVec_newtonHeading (hA : A.PosDef) : A *ᵥ newtonHeading A b x = -affine A b x := by
  have hdet := (isUnit_iff_isUnit_det A).mp hA.isUnit
  rw [newtonHeading, mulVec_neg, mulVec_mulVec, mul_nonsing_inv A hdet, one_mulVec]

theorem newtonHeading_ne_zero (hA : A.PosDef) (hg : affine A b x ≠ 0) :
    newtonHeading A b x ≠ 0 := by
  intro hzero
  have hsolves := mulVec_newtonHeading (b := b) (x := x) hA
  rw [hzero, mulVec_zero, zero_eq_neg] at hsolves
  exact hg hsolves

/-- **Along the Newton direction the slope vanishes after the whole direction.** -/
theorem exactStep_newton (hA : A.PosDef) (hg : affine A b x ≠ 0) :
    exactStep A (affine A b x) (newtonHeading A b x) = newtonHeading A b x := by
  have hcurvature := (dotProduct_mulVec_pos hA (newtonHeading_ne_zero hA hg)).ne'
  rw [exactStep, mulVec_newtonHeading hA, dotProduct_neg, dotProduct_comm, div_neg, neg_neg,
    div_self, one_smul]
  rwa [mulVec_newtonHeading hA, dotProduct_neg, neg_ne_zero] at hcurvature

/-- There the gradient vanishes. -/
theorem affine_newton (hA : A.PosDef) : affine A b (x + newtonHeading A b x) = 0 := by
  rw [affine_add, mulVec_newtonHeading hA, add_neg_cancel]

/-! ### One step -/

/-- **A step of the descent leads to the minimum**, or nowhere if the slope along the direction is
as good as zero. -/
theorem advance_newton_quadratic (hA : A.PosDef) (hq : IsQuadratic objective A b)
    (hsearch : s.search = .newton) (hepsilon : 0 < s.epsilon) (hcap : 2 ≤ s.maxIters)
    (hlong : ¬√(affine A b x ⬝ᵥ affine A b x) ≤ s.epsilon) :
    (⟨List.ofFn x, .newton⟩ : Standing ℝ).advance (objective.complete s.step) s =
      .ok ⟨List.ofFn (if |affine A b x ⬝ᵥ unit (newtonHeading A b x)| < s.epsilon then x
        else x + newtonHeading A b x), .newton⟩ := by
  have hg := affine_ne_zero hepsilon hlong
  have hdet : A.det ≠ 0 := ((isUnit_iff_isUnit_det A).mp hA.isUnit).ne_zero
  obtain ⟨hit, hland⟩ := lineSearch_quadratic hq hA hsearch hepsilon hcap hlong
    (newtonHeading_ne_zero hA hg)
  rw [exactStep_newton hA hg] at hland
  have hdirection : Guide.newton.direction (objective.complete s.step) (List.ofFn x)
      (List.ofFn (affine A b x)) = .ok (List.ofFn (newtonHeading A b x)) := by
    rw [Guide.direction, lift_eq_ofFault, hq.hessian_eq, Failure.ofFault_ok, ok_bind,
      newtonDirection_of_det_ne_zero hdet, newtonHeading]
  exact advance_eq_ok.mpr ⟨_, _, .newton, hq.hasGradient.complete s.step x,
    bind_eq_ok.mpr ⟨_, mapError_eq_ok.mpr hdirection, hland⟩, rfl, rfl⟩

/-! ### The whole descent -/

/-- **How Newton's method goes on a quadratic.** -/
theorem descend_newton_quadratic (hA : A.PosDef) (hq : IsQuadratic objective A b)
    (hmethod : s.method = .newton) (hsearch : s.search = .newton) (hepsilon : 0 < s.epsilon)
    (hcap : 2 ≤ s.maxIters) (x₀ : Fin n → ℝ) :
    (descend (objective.complete s.step) s .silent () (List.ofFn x₀)).outcome =
      if √(affine A b x₀ ⬝ᵥ affine A b x₀) ≤ s.epsilon then
        .ok ⟨.converged, List.ofFn x₀, quadraticValue A b x₀, √(affine A b x₀ ⬝ᵥ affine A b x₀), 0⟩
      else if |affine A b x₀ ⬝ᵥ unit (newtonHeading A b x₀)| < s.epsilon then
        .error (.error (.notConverged (.method .newton) s.maxIters))
      else .ok ⟨.converged, List.ofFn (x₀ + newtonHeading A b x₀),
        quadraticValue A b (x₀ + newtonHeading A b x₀), 0, 1⟩ := by
  have hgradient := hq.hasGradient.complete s.step
  have hvalue := hq.value_eq
  have hstart : Arrives (objective.complete s.step) s (List.ofFn x₀) 0 ⟨List.ofFn x₀, .newton⟩ :=
    .zero (by rw [hmethod]; rfl)
  by_cases hshort : √(affine A b x₀ ⬝ᵥ affine A b x₀) ≤ s.epsilon
  · rw [if_pos hshort, hstart.converged (by omega) (hgradient x₀) (hvalue x₀)
      (by rwa [Vec.norm_ofFn]), Vec.norm_ofFn]
  have hlong : ¬Vec.norm (List.ofFn (affine A b x₀)) ≤ s.epsilon := by rwa [Vec.norm_ofFn]
  have hadvance := advance_newton_quadratic hA hq hsearch hepsilon hcap hshort
  rw [if_neg hshort]
  split_ifs at hadvance ⊢ with hflat
  · rw [hstart.stuck (hgradient x₀) (hvalue x₀) hlong hadvance, hmethod]
  · have hone := hstart.succ (hgradient x₀) (hvalue x₀) hlong hadvance
    have hnorm : Vec.norm (List.ofFn (affine A b (x₀ + newtonHeading A b x₀))) = 0 := by
      rw [Vec.norm_ofFn, affine_newton hA, zero_dotProduct, Real.sqrt_zero]
    rw [hone.converged (by omega) (hgradient _) (hvalue _) (hnorm.trans_le hepsilon.le), hnorm]

/-- **Newton's method with the Newton line search on a quadratic.** It converges at the starting
point if the gradient is short there, and otherwise after one step, at the minimum, where the
gradient vanishes, unless the slope along the unit direction is as good as zero at the start. In
that case it makes no progress and uses up its rounds. -/
theorem run_newton_quadratic (hA : A.PosDef) {m : Minimiser ℝ} (hq : IsQuadratic objective A b)
    (hcheck : m.settings.check = .ok ()) (hobjective : m.objective? = some objective)
    (hmethod : m.settings.method = .newton) (hsearch : m.settings.search = .newton)
    (hepsilon : 0 < m.settings.epsilon) (hcap : 2 ≤ m.settings.maxIters) (x₀ : Fin n → ℝ) :
    (m.run .silent () (List.ofFn x₀)).outcome =
      if √(affine A b x₀ ⬝ᵥ affine A b x₀) ≤ m.settings.epsilon then
        .ok ⟨.converged, List.ofFn x₀, quadraticValue A b x₀, √(affine A b x₀ ⬝ᵥ affine A b x₀), 0⟩
      else if |affine A b x₀ ⬝ᵥ unit (newtonHeading A b x₀)| < m.settings.epsilon then
        .error (.error (.notConverged (.method .newton) m.settings.maxIters))
      else .ok ⟨.converged, List.ofFn (x₀ + newtonHeading A b x₀),
        quadraticValue A b (x₀ + newtonHeading A b x₀), 0, 1⟩ := by
  rw [run_of_oracle (oracle_of_check hcheck hobjective)]
  exact descend_newton_quadratic hA hq hmethod hsearch hepsilon hcap x₀

/-! ### An elongated bowl -/

/-- A minimisation of `x² / 2 + 2 y²` by Newton's method, with a given tolerance. -/
noncomputable def bowl (epsilon : ℝ) : Minimiser ℝ where
  settings :=
    { maxIters := 8, epsilon, step := 1, delta := 0, trivialStep := 1, search := .newton,
      method := .newton }
  objective? := some (quadratic elongated 0)

theorem bowl_check {epsilon : ℝ} (h : 0 ≤ epsilon) : (bowl epsilon).settings.check = .ok () :=
  check_eq_ok_iff.mpr (by simpa [bowl] using h)

/-- The Newton direction leads to the minimum. -/
theorem newtonHeading_elongated : newtonHeading elongated 0 ![3, 4] = -![3, 4] := by
  have hdet := (isUnit_iff_isUnit_det elongated).mp elongated_posDef.isUnit
  rw [newtonHeading, affine, add_zero, mulVec_mulVec, nonsing_inv_mul elongated hdet, one_mulVec]

/-- The slope along the unit direction is less than the length of the gradient. -/
theorem slope_elongated : |affine elongated 0 ![3, 4] ⬝ᵥ
    unit (newtonHeading elongated 0 ![3, 4])| = 73 / 5 := by
  have hlength : √(25 : ℝ) = 5 := by
    rw [show (25 : ℝ) = 5 ^ 2 by norm_num]
    exact Real.sqrt_sq (by norm_num)
  have hunit : unit (-![(3 : ℝ), 4]) = (5 : ℝ)⁻¹ • -![3, 4] := by
    rw [unit, show -![(3 : ℝ), 4] ⬝ᵥ -![3, 4] = 25 by norm_num [dotProduct, Fin.sum_univ_two],
      hlength]
  rw [affine_elongated, newtonHeading_elongated, hunit, dotProduct_smul, smul_eq_mul,
    show ![(3 : ℝ), 4 * 4] ⬝ᵥ -![3, 4] = -73 by norm_num [dotProduct, Fin.sum_univ_two]]
  rw [abs_mul]
  norm_num

/-- With a tolerance of one the minimum is found in one step. -/
theorem run_newton_quadratic_bowl :
    ∃ sol, ((bowl 1).run .silent () (List.ofFn ![3, 4])).outcome = .ok sol ∧
      sol.ending = .converged ∧ sol.point = List.ofFn (0 : Fin 2 → ℝ) ∧ sol.iters = 1 := by
  have hrun := run_newton_quadratic elongated_posDef (quadratic_isQuadratic elongated 0)
    (bowl_check zero_le_one) rfl rfl rfl (zero_lt_one (α := ℝ)) (by decide : 2 ≤ 8) ![3, 4]
  rw [if_neg (long_elongated (by norm_num [bowl]) (by norm_num [bowl])), slope_elongated,
    if_neg (by norm_num [bowl])] at hrun
  exact ⟨_, hrun, rfl, by rw [newtonHeading_elongated, add_neg_cancel], rfl⟩

/-- **A long gradient does not make a steep slope**: with a tolerance of sixteen the gradient is
longer than the tolerance, but the slope along the unit direction is not, and the minimum is never
found. -/
theorem bowl_not_converged :
    elongated.PosDef ∧ IsQuadratic (quadratic elongated 0) elongated 0 ∧
      (bowl 16).settings.check = .ok () ∧ (bowl 16).objective? = some (quadratic elongated 0) ∧
      (bowl 16).settings.method = .newton ∧ (bowl 16).settings.search = .newton ∧
      0 < (bowl 16).settings.epsilon ∧ 2 ≤ (bowl 16).settings.maxIters ∧
      ¬∃ sol, ((bowl 16).run .silent () (List.ofFn ![3, 4])).outcome = .ok sol ∧
        sol.ending = .converged ∧ sol.iters ≤ 1 := by
  have hcheck : (bowl 16).settings.check = .ok () := bowl_check (by norm_num)
  have hdescend := descend_newton_quadratic (s := (bowl 16).settings) elongated_posDef
    (quadratic_isQuadratic elongated 0) rfl rfl (by norm_num [bowl]) (by decide) ![3, 4]
  rw [if_neg (long_elongated (by norm_num [bowl]) (by norm_num [bowl])), slope_elongated,
    if_pos (by norm_num [bowl])] at hdescend
  refine ⟨elongated_posDef, quadratic_isQuadratic elongated 0, hcheck, rfl, rfl, rfl,
    by norm_num [bowl], by decide, ?_⟩
  rw [run_of_oracle (oracle_of_check hcheck rfl), hdescend]
  rintro ⟨sol, hsol, -⟩
  exact nomatch hsol

end Stepwise.Descent
