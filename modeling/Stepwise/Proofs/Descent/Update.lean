import Mathlib.LinearAlgebra.Matrix.PosDef
import Mathlib.Algebra.Order.Star.Real
import Stepwise.Descent.Guide
import Stepwise.Proofs.Linear.Matrices

/-!
# The BFGS update in exact arithmetic

On families of numbers the update of an estimate `H` of the inverse Hessian is
`P H Pᵀ + s sᵀ / s·y`, where `P = I - s yᵀ / s·y` (`Stepwise.Descent.bfgs`), and it
fails only if `s·y = 0`. The new estimate maps `y` to `s` (`Stepwise.Descent.bfgs_mulVec_change`).
What the old one mapped right it still does, where this has nothing to do with the step
(`Stepwise.Descent.bfgs_mulVec_of_conjugate`).

The update keeps an estimate positive definite if `s·y > 0`. For a vector `x` the two
summands contribute `w·Hw` with `w = Pᵀx`, and `(s·x)² / s·y`. Neither is negative. If
`w` is not zero then the first is positive; and if it is zero then `x` is a multiple of
`y`, so that `s·x` is not zero unless `x` is.

All that is asked of the update, and when it fails, stands together at the end
(`Stepwise.Descent.updateInverse_corrects`).
-/

namespace Stepwise.Descent

open Matrix

variable {n : ℕ} (H : Matrix (Fin n) (Fin n) ℝ) (s y : Fin n → ℝ)

/-- The matrix `I - s yᵀ / s·y`. -/
noncomputable def deflation : Matrix (Fin n) (Fin n) ℝ := 1 - (s ⬝ᵥ y)⁻¹ • vecMulVec s y

/-- The BFGS update of an estimate of the inverse Hessian, by a step `s` along which the
gradient changes by `y`. -/
noncomputable def bfgs : Matrix (Fin n) (Fin n) ℝ :=
  deflation s y * H * (deflation s y)ᵀ + (s ⬝ᵥ y)⁻¹ • vecMulVec s s

/-- **The update is that of BFGS, and it fails only for want of curvature.** -/
theorem updateInverse_ofMatrix :
    updateInverse (Mat.ofMatrix H) (List.ofFn s) (List.ofFn y) =
      if s ⬝ᵥ y = 0 then .error (.error (.curvaturePair 0))
      else .ok (Mat.ofMatrix (bfgs H s y)) := by
  simp only [updateInverse, lift_eq_ofFault, Vec.dot_ofFn, Failure.ofFault_ok, ok_bind,
    Scalar.ofNat_real, Scalar.beq_real, Scalar.isFinite_real]
  -- Exact numbers are finite, so the test of the product is whether it vanishes.
  split_ifs with hproduct hzero hzero
  · rw [hzero]
    rfl
  · simp [hzero] at hproduct
  · simp [hzero] at hproduct
  · simp only [Mat.outer_ofFn, Mat.divide_ofMatrix, List.length_ofFn, Mat.identity_real,
      Mat.sub_ofMatrix, Mat.transpose_ofMatrix, Mat.mul_ofMatrix, Mat.add_ofMatrix,
      Failure.ofFault_ok, ok_bind]
    rfl

/-! ### Symmetry -/

variable {H s y}

theorem bfgs_isSymm (h : H.IsSymm) : (bfgs H s y).IsSymm := by
  have hs : (vecMulVec s s)ᵀ = vecMulVec s s := transpose_vecMulVec s s
  rw [IsSymm, bfgs, transpose_add, transpose_smul, hs, transpose_mul, transpose_mul,
    transpose_transpose, h.eq, Matrix.mul_assoc]

/-! ### What the updated estimate maps where -/

theorem deflation_mulVec (x : Fin n → ℝ) :
    deflation s y *ᵥ x = x - ((s ⬝ᵥ y)⁻¹ * (y ⬝ᵥ x)) • s := by
  rw [deflation, sub_mulVec, one_mulVec, smul_mulVec, vecMulVec_mulVec, op_smul_eq_smul, smul_smul]

theorem deflation_transpose_mulVec (x : Fin n → ℝ) :
    (deflation s y)ᵀ *ᵥ x = x - ((s ⬝ᵥ y)⁻¹ * (s ⬝ᵥ x)) • y := by
  rw [deflation, transpose_sub, transpose_one, transpose_smul, transpose_vecMulVec, sub_mulVec,
    one_mulVec, smul_mulVec, vecMulVec_mulVec, op_smul_eq_smul, smul_smul]

theorem bfgs_mulVec (x : Fin n → ℝ) :
    bfgs H s y *ᵥ x = deflation s y *ᵥ (H *ᵥ ((deflation s y)ᵀ *ᵥ x)) +
      ((s ⬝ᵥ y)⁻¹ * (s ⬝ᵥ x)) • s := by
  rw [bfgs, add_mulVec, ← mulVec_mulVec, ← mulVec_mulVec, smul_mulVec, vecMulVec_mulVec,
    op_smul_eq_smul, smul_smul]

/-- **The secant equation**: the updated estimate maps the change of the gradient to the step. -/
theorem bfgs_mulVec_change (h : s ⬝ᵥ y ≠ 0) : bfgs H s y *ᵥ y = s := by
  rw [bfgs_mulVec, deflation_transpose_mulVec, inv_mul_cancel₀ h, one_smul, sub_self, mulVec_zero,
    mulVec_zero, zero_add, one_smul]

/-- **What the estimate was right about it stays right about**, if it is conjugate to the step. -/
theorem bfgs_mulVec_of_conjugate {z w : Fin n → ℝ} (hH : H *ᵥ z = w) (hz : s ⬝ᵥ z = 0)
    (hw : y ⬝ᵥ w = 0) : bfgs H s y *ᵥ z = w := by
  rw [bfgs_mulVec, deflation_transpose_mulVec, hz, mul_zero, zero_smul, zero_smul, sub_zero, hH,
    deflation_mulVec, hw, mul_zero, zero_smul, sub_zero, add_zero]

/-! ### Positive definiteness -/

/-- What the updated estimate makes of a vector. -/
theorem dotProduct_bfgs_mulVec (x : Fin n → ℝ) :
    x ⬝ᵥ bfgs H s y *ᵥ x =
      ((deflation s y)ᵀ *ᵥ x) ⬝ᵥ H *ᵥ ((deflation s y)ᵀ *ᵥ x) +
        (s ⬝ᵥ y)⁻¹ * (s ⬝ᵥ x) ^ 2 := by
  rw [bfgs_mulVec, dotProduct_add, dotProduct_mulVec, ← mulVec_transpose, dotProduct_smul,
    dotProduct_comm x s, smul_eq_mul, mul_assoc, sq]

/-- **The update keeps an estimate positive definite** if the gradient grows along the
step. -/
theorem bfgs_posDef (hH : H.PosDef) (hpos : 0 < s ⬝ᵥ y) : (bfgs H s y).PosDef := by
  have hsymm : H.IsSymm := by simpa using hH.isHermitian
  refine .of_dotProduct_mulVec_pos (by simpa using bfgs_isSymm hsymm) fun x hx => ?_
  rw [star_trivial, dotProduct_bfgs_mulVec]
  by_cases hw : (deflation s y)ᵀ *ᵥ x = 0
  · -- Otherwise `x` would be what `w` differs from it by, which is nothing.
    have hsx : s ⬝ᵥ x ≠ 0 := by
      intro hzero
      rw [deflation_transpose_mulVec, hzero, mul_zero, zero_smul, sub_zero] at hw
      exact hx hw
    rw [hw, zero_dotProduct, zero_add]
    positivity
  · have hfirst := hH.dotProduct_mulVec_pos hw
    rw [star_trivial] at hfirst
    positivity

/-! ### The whole update -/

/-- What is asked of an estimate `H'` that replaces `H` after a step `s` along which the gradient
changes by `y`. -/
structure Corrects (H : Matrix (Fin n) (Fin n) ℝ) (s y : Fin n → ℝ)
    (H' : Matrix (Fin n) (Fin n) ℝ) : Prop where
  /-- It maps the change of the gradient to the step. -/
  secant : H' *ᵥ y = s
  /-- It is symmetric if the old estimate is. -/
  isSymm : H.IsSymm → H'.IsSymm
  /-- It is positive definite if the old estimate is and the gradient grows along the step. -/
  posDef : H.PosDef → 0 < s ⬝ᵥ y → H'.PosDef
  /-- It maps what is conjugate to the step where the old estimate did. -/
  kept : ∀ z w, H *ᵥ z = w → s ⬝ᵥ z = 0 → w ⬝ᵥ y = 0 → H' *ᵥ z = w

theorem bfgs_corrects (h : s ⬝ᵥ y ≠ 0) : Corrects H s y (bfgs H s y) where
  secant := bfgs_mulVec_change h
  isSymm := bfgs_isSymm
  posDef := bfgs_posDef
  kept _ w hH hz hw := bfgs_mulVec_of_conjugate hH hz ((dotProduct_comm y w).trans hw)

/-- The estimate that is left when an update is over: the old one if the update has failed. -/
def estimateAfter {R : Type} [Scalar R] (inverse : Mat R) (s y : Vec R) : Mat R :=
  (updateInverse inverse s y).toOption.getD inverse

/-- **An update fails just if the gradient does not change along the step, and otherwise corrects
the estimate.** A failed update leaves the estimate as it was. -/
theorem updateInverse_corrects (H : Matrix (Fin n) (Fin n) ℝ) (s y : Fin n → ℝ) :
    ((∃ a, updateInverse (Mat.ofMatrix H) (List.ofFn s) (List.ofFn y) =
        .error (.error (.curvaturePair a))) ↔ s ⬝ᵥ y = 0) ∧
      (s ⬝ᵥ y = 0 →
        estimateAfter (Mat.ofMatrix H) (List.ofFn s) (List.ofFn y) = Mat.ofMatrix H) ∧
      (s ⬝ᵥ y ≠ 0 → ∃ H', updateInverse (Mat.ofMatrix H) (List.ofFn s) (List.ofFn y) =
        .ok (Mat.ofMatrix H') ∧ Corrects H s y H') := by
  have hupdate := updateInverse_ofMatrix H s y
  by_cases h : s ⬝ᵥ y = 0
  · rw [if_pos h] at hupdate
    refine ⟨iff_of_true ⟨0, hupdate⟩ h, fun _ => ?_, fun hne => absurd h hne⟩
    rw [estimateAfter, hupdate]
    rfl
  · rw [if_neg h] at hupdate
    refine ⟨iff_of_false ?_ h, fun hzero => absurd hzero h,
      fun _ => ⟨bfgs H s y, hupdate, bfgs_corrects h⟩⟩
    rintro ⟨a, ha⟩
    exact nomatch hupdate.symm.trans ha

/-- From the identity, a step along which the gradient grows leads to an estimate that is positive
definite. -/
theorem updateInverse_corrects_identity :
    ∃ H' : Matrix (Fin 2) (Fin 2) ℝ,
      updateInverse (Mat.ofMatrix (1 : Matrix (Fin 2) (Fin 2) ℝ)) (List.ofFn ![1 / 2, -1])
        (List.ofFn ![1, -4]) = .ok (Mat.ofMatrix H') ∧
      H' *ᵥ ![1, -4] = ![1 / 2, -1] ∧ H'.PosDef := by
  have hpos : (0 : ℝ) < ![1 / 2, -1] ⬝ᵥ ![1, -4] := by
    norm_num [dotProduct, Fin.sum_univ_two]
  obtain ⟨H', hupdate, hcorrects⟩ :=
    (updateInverse_corrects (1 : Matrix (Fin 2) (Fin 2) ℝ) ![1 / 2, -1] ![1, -4]).2.2 hpos.ne'
  exact ⟨H', hupdate, hcorrects.secant, hcorrects.posDef .one hpos⟩

end Stepwise.Descent
