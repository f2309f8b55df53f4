import Mathlib.LinearAlgebra.Matrix.PosDef
import Stepwise.Proofs.Descent.QuasiNewton
import Stepwise.Proofs.Descent.Slices

/-!
# Newton's line search on quadratics

A quadratic `u·Au / 2 + b·u` with a positive definite matrix has the gradient `Au + b`, which
is strictly monotone, and along a ray its slope grows at the constant rate `d·Ad`. So Newton's
method finds the stationary point of the ray in one step, unless the slope is as good as zero at
the start, in which case it does not move (`Stepwise.Descent.slopeRoot_quadratic`).

The line search makes its direction one unit long first. That has no influence on where the
stationary point lies (`Stepwise.Descent.exactStep_unit`), but it does decide how steep the slope
looks at the start: it is the component of the gradient along the unit direction that is
compared with the tolerance (`Stepwise.Descent.lineSearch_quadratic`).
-/

namespace Stepwise.Descent

open Matrix Scalar

variable {n : ℕ} {A : Matrix (Fin n) (Fin n) ℝ} {b : Fin n → ℝ}

/-! ### Quadratics -/

/-- The quadratic `u·Au / 2 + b·u`. -/
noncomputable def quadraticValue (A : Matrix (Fin n) (Fin n) ℝ) (b u : Fin n → ℝ) : ℝ :=
  u ⬝ᵥ A *ᵥ u / ofNat 2 + b ⬝ᵥ u

/-- Its gradient. -/
def affine (A : Matrix (Fin n) (Fin n) ℝ) (b u : Fin n → ℝ) : Fin n → ℝ := A *ᵥ u + b

/-- The objective is the quadratic `u·Au / 2 + b·u`, with its gradient and its Hessian. -/
structure IsQuadratic (objective : Objective ℝ) (A : Matrix (Fin n) (Fin n) ℝ) (b : Fin n → ℝ) :
    Prop where
  /-- The value. -/
  value_eq : ∀ u, objective.value (List.ofFn u) = .ok (quadraticValue A b u)
  /-- The gradient. -/
  hasGradient : HasGradient objective (affine A b)
  /-- The Hessian is the same everywhere. -/
  hasHessian : ∃ bend, objective.hessian? = some bend ∧
    ∀ u : Fin n → ℝ, bend (List.ofFn u) = .ok (Mat.ofMatrix A)

theorem IsQuadratic.hessian_eq {objective : Objective ℝ} (h : IsQuadratic objective A b)
    (step : ℝ) (u : Fin n → ℝ) :
    (objective.complete step).hessian (List.ofFn u) = .ok (Mat.ofMatrix A) := by
  obtain ⟨bend, hbend, hA⟩ := h.hasHessian
  simp only [Objective.complete, hbend, Option.getD_some, hA]

/-- The quadratic as an objective. -/
noncomputable def quadratic (A : Matrix (Fin n) (Fin n) ℝ) (b : Fin n → ℝ) : Objective ℝ where
  value u := do
    return (← Vec.dot u (← (Mat.ofMatrix A).mulVec u)) / ofNat 2 + (← Vec.dot (List.ofFn b) u)
  gradient? := some fun u => do (← (Mat.ofMatrix A).mulVec u).add (List.ofFn b)
  hessian? := some fun _ => .ok (Mat.ofMatrix A)

theorem quadratic_isQuadratic (A : Matrix (Fin n) (Fin n) ℝ) (b : Fin n → ℝ) :
    IsQuadratic (quadratic A b) A b where
  value_eq u := by
    simp only [quadratic, Mat.mulVec_ofMatrix, Vec.dot_ofFn, ok_bind]
    rfl
  hasGradient :=
    ⟨_, rfl, fun u => by simp only [Mat.mulVec_ofMatrix, ok_bind, Vec.add_ofFn, affine]⟩
  hasHessian := ⟨_, rfl, fun _ => rfl⟩

/-- The change of the gradient along a step. -/
theorem affine_sub (u v : Fin n → ℝ) : affine A b u - affine A b v = A *ᵥ (u - v) := by
  rw [affine, affine, mulVec_sub, add_sub_add_right_eq_sub]

theorem affine_add (u v : Fin n → ℝ) : affine A b (u + v) = affine A b u + A *ᵥ v := by
  rw [affine, affine, mulVec_add, add_right_comm]

theorem dotProduct_mulVec_pos (hA : A.PosDef) {u : Fin n → ℝ} (hu : u ≠ 0) : 0 < u ⬝ᵥ A *ᵥ u := by
  simpa using hA.dotProduct_mulVec_pos hu

theorem affine_ne_zero {x : Fin n → ℝ} {epsilon : ℝ} (hepsilon : 0 < epsilon)
    (hlong : ¬√(affine A b x ⬝ᵥ affine A b x) ≤ epsilon) : affine A b x ≠ 0 := by
  intro hzero
  rw [hzero, zero_dotProduct, Real.sqrt_zero] at hlong
  exact hlong hepsilon.le

/-- A positive definite matrix can be moved to the other side of an inner product. -/
theorem mulVec_dotProduct_comm (hA : A.PosDef) (u v : Fin n → ℝ) :
    A *ᵥ u ⬝ᵥ v = u ⬝ᵥ A *ᵥ v := by
  have hsymm : A.IsSymm := by simpa using hA.isHermitian
  rw [dotProduct_mulVec, ← mulVec_transpose, hsymm.eq]

/-- **The gradient of a positive definite quadratic is strictly monotone.** -/
theorem affine_strictlyMonotone (hA : A.PosDef) (b : Fin n → ℝ) :
    StrictlyMonotone (affine A b) := by
  intro u v hne
  rw [affine_sub, dotProduct_comm]
  exact dotProduct_mulVec_pos hA (sub_ne_zero.mpr hne)

/-- The matrix of `x² / 2 + 2 y²`. -/
def elongated : Matrix (Fin 2) (Fin 2) ℝ := diagonal ![1, 4]

theorem elongated_posDef : elongated.PosDef := by
  rw [elongated, posDef_diagonal_iff, Fin.forall_fin_two]
  norm_num

theorem affine_elongated (a b : ℝ) : affine elongated 0 ![a, b] = ![a, 4 * b] := by
  ext i
  fin_cases i <;> norm_num [affine, elongated, mulVec_diagonal, mul_comm]

/-- Where its gradient is longer than a tolerance. -/
theorem long_elongated {epsilon a b : ℝ} (hepsilon : 0 ≤ epsilon)
    (h : epsilon ^ 2 < a ^ 2 + (4 * b) ^ 2) :
    ¬√(affine elongated 0 ![a, b] ⬝ᵥ affine elongated 0 ![a, b]) ≤ epsilon := by
  rw [affine_elongated, not_le, Real.lt_sqrt hepsilon]
  simpa [dotProduct, Fin.sum_univ_two, sq] using h

/-! ### Stationary points of rays -/

/-- The step along `p` to where the slope vanishes, from a point with gradient `g`. -/
noncomputable def exactStep (A : Matrix (Fin n) (Fin n) ℝ) (g p : Fin n → ℝ) : Fin n → ℝ :=
  -(g ⬝ᵥ p / (p ⬝ᵥ A *ᵥ p)) • p

/-- After the exact step the gradient is orthogonal to the direction. -/
theorem affine_exactStep_dotProduct (hA : A.PosDef) (x : Fin n → ℝ) {p : Fin n → ℝ} (hp : p ≠ 0) :
    affine A b (x + exactStep A (affine A b x) p) ⬝ᵥ p = 0 := by
  have hcurvature := (dotProduct_mulVec_pos hA hp).ne'
  rw [affine_add, exactStep, mulVec_smul, add_dotProduct, smul_dotProduct, smul_eq_mul,
    dotProduct_comm (A *ᵥ p)]
  field_simp
  ring

theorem dotProduct_self_pos {p : Fin n → ℝ} (hp : p ≠ 0) : 0 < p ⬝ᵥ p := by
  simpa using dotProduct_star_self_pos_iff.mpr hp

/-- How long the direction is does not matter for where the slope vanishes. -/
theorem exactStep_unit (g : Fin n → ℝ) {p : Fin n → ℝ} (hp : p ≠ 0) :
    exactStep A g (unit p) = exactStep A g p := by
  have hlength : √(p ⬝ᵥ p) ≠ 0 := (Real.sqrt_pos.mpr (dotProduct_self_pos hp)).ne'
  simp only [exactStep, unit, dotProduct_smul, mulVec_smul, smul_dotProduct, smul_eq_mul, smul_smul]
  congr 1
  field_simp

theorem unit_ne_zero {p : Fin n → ℝ} (hp : p ≠ 0) : unit p ≠ 0 :=
  smul_ne_zero (inv_ne_zero (Real.sqrt_pos.mpr (dotProduct_self_pos hp)).ne') hp

/-- A slope that is at least as long as its direction is at least one along the unit direction. -/
theorem one_le_slope {g d : Fin n → ℝ} (hd : d ≠ 0) (hle : d ⬝ᵥ d ≤ (g ⬝ᵥ d) ^ 2) :
    ¬|g ⬝ᵥ unit d| < 1 := by
  have hpos : 0 < √(d ⬝ᵥ d) := Real.sqrt_pos.mpr (dotProduct_self_pos hd)
  rw [unit, dotProduct_smul, smul_eq_mul, abs_mul, abs_of_pos (inv_pos.mpr hpos), not_lt,
    le_inv_mul_iff₀ hpos, mul_one]
  exact Real.sqrt_le_iff.mpr ⟨abs_nonneg _, by rwa [sq_abs]⟩

/-! ### Newton's method along a ray -/

section Searches

variable {objective : Objective ℝ} (hq : IsQuadratic objective A b)

include hq

/-- One Newton step on the slope of a quadratic. -/
theorem newtonStep_quadratic (hA : A.PosDef) (step epsilon : ℝ) (iter : ℕ) (x : Fin n → ℝ)
    {d : Fin n → ℝ} (hd : d ≠ 0) (t : ℝ) :
    (⟨List.ofFn x, List.ofFn d⟩ : Ray ℝ).newtonStep (objective.complete step) epsilon iter t =
      if |affine A b (x + t • d) ⬝ᵥ d| < epsilon ∨
          √(affine A b (x + t • d) ⬝ᵥ affine A b (x + t • d)) < epsilon then
        .ok (.done ⟨iter, t⟩)
      else .ok (.again (t - affine A b (x + t • d) ⬝ᵥ d / (d ⬝ᵥ A *ᵥ d))) := by
  have hcurvature : (⟨List.ofFn x, List.ofFn d⟩ : Ray ℝ).curvature (objective.complete step)
      (List.ofFn (x + t • d)) = .ok (d ⬝ᵥ A *ᵥ d) := by
    simp only [Ray.curvature, hq.hessian_eq, ok_bind, Mat.mulVec_ofMatrix, Vec.dot_ofFn,
      dotProduct_comm (A *ᵥ d)]
  have hpos := (dotProduct_mulVec_pos hA hd).ne'
  simp only [Ray.newtonStep, point_ofFn, lift_eq_ofFault, Failure.ofFault_ok, ok_bind,
    hq.hasGradient.complete, Vec.dot_ofFn, Vec.norm_ofFn, hcurvature, Scalar.abs_real,
    Scalar.beq_real, Scalar.ofNat_real, Nat.cast_zero, Scalar.isFinite_real, hpos, Bool.not_true,
    Bool.or_false, if_false, Bool.or_eq_true, decide_eq_true_eq]
  split_ifs <;> rfl

/-- **Newton's method on the slope of a quadratic ends at once or after one step.** -/
theorem slopeRoot_quadratic (hA : A.PosDef) (step : ℝ) {epsilon : ℝ} (hepsilon : 0 < epsilon)
    {cap : ℕ} (hcap : 2 ≤ cap) (x : Fin n → ℝ) {d : Fin n → ℝ} (hd : d ≠ 0) :
    (⟨List.ofFn x, List.ofFn d⟩ : Ray ℝ).slopeRoot (objective.complete step) epsilon cap =
      .ok (some (if |affine A b x ⬝ᵥ d| < epsilon ∨ √(affine A b x ⬝ᵥ affine A b x) < epsilon
        then ⟨0, 0⟩ else ⟨1, -(affine A b x ⬝ᵥ d / (d ⬝ᵥ A *ᵥ d))⟩)) := by
  obtain ⟨cap, rfl⟩ : ∃ c, cap = c + 1 + 1 := ⟨cap - 2, by omega⟩
  have hfirst := newtonStep_quadratic hq hA step epsilon 0 x hd 0
  rw [zero_smul, add_zero, zero_sub] at hfirst
  rw [Ray.slopeRoot, Scalar.ofNat_real, Nat.cast_zero]
  split_ifs at hfirst ⊢ with hflat
  · rw [rounds_succ_of_done (by rw [hfirst]; rfl)]
    rfl
  · -- One step leads to where the slope vanishes.
    have hsecond := newtonStep_quadratic hq hA step epsilon 1 x hd
      (-(affine A b x ⬝ᵥ d / (d ⬝ᵥ A *ᵥ d)))
    have hzero := affine_exactStep_dotProduct (b := b) hA x hd
    rw [exactStep] at hzero
    rw [hzero, abs_zero, if_pos (.inl hepsilon)] at hsecond
    rw [rounds_succ_of_again (by rw [hfirst]; rfl), rounds_succ_of_done (by rw [hsecond]; rfl)]
    rfl

/-- **Where the Newton line search lands on a quadratic**, from a point where the gradient is
longer than the tolerance: at the point itself if the slope along the unit direction is as good as
zero, and otherwise where the slope vanishes. -/
theorem lineSearch_quadratic (hA : A.PosDef) {s : Settings ℝ} (hsearch : s.search = .newton)
    (hepsilon : 0 < s.epsilon) (hcap : 2 ≤ s.maxIters) {x : Fin n → ℝ}
    (hlong : ¬√(affine A b x ⬝ᵥ affine A b x) ≤ s.epsilon) {p : Fin n → ℝ} (hp : p ≠ 0) :
    ∃ hit, lineSearch (objective.complete s.step) s (List.ofFn x) (List.ofFn p) =
      .ok ⟨List.ofFn (if |affine A b x ⬝ᵥ unit p| < s.epsilon then x
        else x + exactStep A (affine A b x) p), some hit⟩ := by
  have hslope := slopeRoot_quadratic hq hA s.step hepsilon hcap x (unit_ne_zero hp)
  have hlong' : ¬√(affine A b x ⬝ᵥ affine A b x) < s.epsilon := fun hlt => hlong hlt.le
  simp only [hlong', or_false] at hslope
  simp only [lineSearch, hsearch]
  refine ⟨_, landAlong_eq_ok.mpr ⟨_, _, _, ofDirection_ofFn (dotProduct_self_pos hp), hslope,
    ?_, rfl⟩⟩
  rw [point_ofFn]
  split_ifs
  · rw [zero_smul, add_zero]
  · rw [← exactStep_unit _ hp, exactStep]

end Searches

end Stepwise.Descent
