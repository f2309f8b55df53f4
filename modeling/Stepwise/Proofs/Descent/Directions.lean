import Stepwise.Descent.Guide
import Stepwise.Proofs.Linear.Elimination

/-!
# Newton directions in exact arithmetic

In exact arithmetic every vector is finite, so a Newton direction is there exactly if
elimination finds one: it solves the system of the Hessian, with the gradient turned round on
the other side (`Stepwise.Descent.newtonDirection_ofFn`). For a regular Hessian it is given by
the inverse. For a singular one elimination comes to a leading coefficient of zero, sooner or later,
whether or not the system has solutions; so the determinant alone decides whether there is a
direction (`Stepwise.Descent.newtonDirection_decided`).
-/

namespace Stepwise.Descent

open Matrix

variable {n : ℕ} {g : Fin n → ℝ}

theorem isFinite_vec (v : Vec ℝ) : v.isFinite = true := by simp [Vec.isFinite]

/-- A Newton direction is what elimination finds. -/
theorem newtonDirection_eq_ok {hessian : Mat ℝ} {gradient direction : Vec ℝ} :
    newtonDirection hessian gradient = .ok direction ↔
      hessian.solve gradient.neg = .ok (some direction) := by
  simp only [newtonDirection, lift_eq_ofFault, bind_eq_ok, Failure.ofFault_eq_ok]
  constructor
  · rintro ⟨found?, hsolve, h⟩
    cases found? with
    | none => cases h
    | some found =>
      simp only [isFinite_vec, if_true, pure_eq_ok_iff] at h
      rwa [h] at hsolve
  · intro hsolve
    exact ⟨some direction, hsolve, by simp only [isFinite_vec, if_true]; rfl⟩

/-- **A Newton direction solves the Newton system.** -/
theorem newtonDirection_ofFn {hessian : Mat ℝ} {direction : Vec ℝ}
    (h : newtonDirection hessian (List.ofFn g) = .ok direction) :
    ∃ (A : Matrix (Fin n) (Fin n) ℝ) (v : Fin n → ℝ), hessian = Mat.ofMatrix A ∧
      direction = List.ofFn v ∧ A *ᵥ v = -g := by
  rw [newtonDirection_eq_ok, Vec.neg_ofFn] at h
  have hshape : hessian.height = n ∧ hessian.width = n := by
    rw [Mat.solve] at h
    split at h
    · rename_i hfits
      rw [List.length_ofFn] at hfits
      exact ⟨hfits.1, hfits.2.trans hfits.1⟩
    · cases h
  obtain ⟨A, rfl⟩ := Mat.exists_eq_ofMatrix hshape.1 hshape.2
  obtain ⟨v, rfl, hv⟩ := Mat.mulVec_of_solve h
  exact ⟨A, v, rfl, rfl, hv⟩

/-- With a regular Hessian there is a Newton direction, and it is given by the inverse. -/
theorem newtonDirection_of_det_ne_zero {A : Matrix (Fin n) (Fin n) ℝ} (hA : A.det ≠ 0)
    (g : Fin n → ℝ) :
    newtonDirection (Mat.ofMatrix A) (List.ofFn g) = .ok (List.ofFn (-(A⁻¹ *ᵥ g))) := by
  rw [newtonDirection_eq_ok, Vec.neg_ofFn, Mat.solve_of_det_ne_zero (-g) hA, mulVec_neg]

/-- What elimination does not find is reported. -/
theorem newtonDirection_of_solve_none {hessian : Mat ℝ} {gradient : Vec ℝ}
    (h : hessian.solve gradient.neg = .ok none) :
    newtonDirection hessian gradient = .error (.error .singularHessian) := by
  simp only [newtonDirection, lift_eq_ofFault, h]
  rfl

/-- **The Hessian decides whether there is a Newton direction.** In exact arithmetic, for every square
matrix and every gradient, the direction solves the Newton system if the matrix is regular, and if it
is singular that is reported. -/
theorem newtonDirection_decided (A : Matrix (Fin n) (Fin n) ℝ) (g : Fin n → ℝ) :
    (A.det ≠ 0 → ∃ d : Fin n → ℝ,
      newtonDirection (Mat.ofMatrix A) (List.ofFn g) = .ok (List.ofFn d) ∧ A *ᵥ d = -g) ∧
    (A.det = 0 →
      newtonDirection (Mat.ofMatrix A) (List.ofFn g) = .error (.error .singularHessian)) := by
  rcases Mat.solve_ofMatrix A (-g) with ⟨hregular, d, hsolve, hd⟩ | ⟨hsingular, hsolve⟩
  · rw [← Vec.neg_ofFn] at hsolve
    exact ⟨fun _ => ⟨d, newtonDirection_eq_ok.mpr hsolve, hd⟩,
      fun hsingular => absurd hsingular hregular⟩
  · rw [← Vec.neg_ofFn] at hsolve
    exact ⟨fun hregular => absurd hsingular hregular,
      fun _ => newtonDirection_of_solve_none hsolve⟩

/-- A regular matrix whose first row has to move, and a singular one of which only the last pivot
vanishes, with a gradient for which the system has solutions. -/
theorem newtonDirection_decided_pivots :
    ((!![0, 1; 2, 3] : Matrix (Fin 2) (Fin 2) ℝ).det ≠ 0 ∧ ∃ d : Fin 2 → ℝ,
      newtonDirection (Mat.ofMatrix !![0, 1; 2, 3]) (List.ofFn ![1, -1]) = .ok (List.ofFn d) ∧
        !![0, 1; 2, 3] *ᵥ d = -![1, -1]) ∧
    (!![1, 2, 3; 4, 5, 6; 7, 8, 9] : Matrix (Fin 3) (Fin 3) ℝ).det = 0 ∧
      newtonDirection (Mat.ofMatrix !![1, 2, 3; 4, 5, 6; 7, 8, 9]) (List.ofFn ![6, 15, 24]) =
        .error (.error (.singularHessian : Breakdown ℝ)) := by
  have hregular : (!![0, 1; 2, 3] : Matrix (Fin 2) (Fin 2) ℝ).det ≠ 0 := by
    simp [det_fin_two]
  have hsingular : (!![1, 2, 3; 4, 5, 6; 7, 8, 9] : Matrix (Fin 3) (Fin 3) ℝ).det = 0 := by
    simp [det_fin_three]
    norm_num
  exact ⟨⟨hregular, (newtonDirection_decided _ ![1, -1]).1 hregular⟩, hsingular,
    (newtonDirection_decided _ ![6, 15, 24]).2 hsingular⟩

end Stepwise.Descent
