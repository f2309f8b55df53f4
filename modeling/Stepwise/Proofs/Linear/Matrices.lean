import Mathlib.LinearAlgebra.Matrix.Notation
import Stepwise.Linear.Matrix
import Stepwise.Proofs.Linear.Vectors

/-!
# Matrices in exact arithmetic

As a vector lists a family of numbers, a matrix lists a family of rows. The matrix that
lists a given family is `Stepwise.Mat.ofMatrix`; every matrix is one
(`Stepwise.Mat.exists_eq_ofMatrix`). On matrices of this form the operations are those
of linear algebra, and where the shapes fit they do not fail.
-/

namespace Stepwise.Mat

open Matrix

/-! ### Lists of rows and families of rows -/

section Families

variable {R : Type} {r c : ℕ}

theorem ext_rows {a b : Mat R} (hwidth : a.width = b.width) (hrows : a.rows = b.rows) : a = b := by
  cases a
  cases b
  cases hwidth
  cases hrows
  rfl

/-- The matrix that lists a family of rows. -/
def ofMatrix (A : Matrix (Fin r) (Fin c) R) : Mat R where
  width := c
  rows := List.ofFn fun i => List.ofFn (A i)
  width_of_mem := by simp

@[simp] theorem width_ofMatrix (A : Matrix (Fin r) (Fin c) R) : (ofMatrix A).width = c := rfl

@[simp] theorem height_ofMatrix (A : Matrix (Fin r) (Fin c) R) : (ofMatrix A).height = r := by
  simp [height, ofMatrix]

/-- Every matrix lists a family of rows. -/
theorem exists_eq_ofMatrix {m : Mat R} (hheight : m.height = r) (hwidth : m.width = c) :
    ∃ A : Matrix (Fin r) (Fin c) R, m = ofMatrix A := by
  subst hheight hwidth
  have hrow (i : Fin m.height) : ∃ u : Fin m.width → R, m.rows.get i = List.ofFn u :=
    Vec.exists_eq_ofFn (m.width_of_mem _ (List.get_mem _ _))
  choose A hA using hrow
  refine ⟨A, ext_rows rfl ?_⟩
  simp only [ofMatrix, ← hA]
  exact (List.ofFn_get m.rows).symm

/-- A matrix given by its entries lists them. -/
theorem ofFn_eq_ofMatrix (entry : ℕ → ℕ → R) :
    ofFn r c entry = ofMatrix (Matrix.of fun (i : Fin r) (j : Fin c) => entry i j) := by
  have hrange {α : Type} (n : ℕ) (f : ℕ → α) :
      (List.range n).map f = List.ofFn fun i : Fin n => f i := by
    rw [List.ofFn_eq_map, ← List.map_coe_finRange_eq_range, List.map_map]
    rfl
  refine ext_rows rfl ?_
  simp only [ofFn, ofMatrix, hrange]
  rfl

variable [Scalar R]

@[simp] theorem entry_ofMatrix (A : Matrix (Fin r) (Fin c) R) (i : Fin r) (j : Fin c) :
    (ofMatrix A).entry i j = A i j := by
  simp [entry, ofMatrix]

@[simp] theorem transpose_ofMatrix (A : Matrix (Fin r) (Fin c) R) :
    (ofMatrix A).transpose = ofMatrix Aᵀ := by
  rw [transpose, height_ofMatrix, width_ofMatrix, ofFn_eq_ofMatrix]
  congr 1
  ext i j
  simp

/-- The columns of a matrix are the rows of its transpose. -/
theorem ofColumns_ofFn (columns : Fin c → Fin r → R) :
    ofColumns r (List.ofFn fun j => List.ofFn (columns j)) =
      ofMatrix (Matrix.of fun i j => columns j i) := by
  rw [ofColumns, List.length_ofFn, ofFn_eq_ofMatrix]
  congr 1
  ext i j
  simp

theorem combine_ofMatrix (f : R → R → R) (A B : Matrix (Fin r) (Fin c) R) :
    combine f (ofMatrix A) (ofMatrix B) =
      .ok (ofMatrix (Matrix.of fun i j => f (A i j) (B i j))) := by
  rw [combine, if_pos (by simp), height_ofMatrix, width_ofMatrix, ofFn_eq_ofMatrix]
  simp

end Families

/-! ### The operations -/

section Operations

variable {n r c k : ℕ}

@[simp] theorem identity_real (n : ℕ) :
    (identity n : Mat ℝ) = ofMatrix (1 : Matrix (Fin n) (Fin n) ℝ) := by
  rw [identity, ofFn_eq_ofMatrix]
  congr 1
  ext i j
  rw [Matrix.one_apply]
  by_cases h : i = j
  · simp [h]
  · simp [h, Fin.val_inj]

@[simp] theorem outer_ofFn (u : Fin r → ℝ) (v : Fin c → ℝ) :
    outer (List.ofFn u) (List.ofFn v) = ofMatrix (vecMulVec u v) := by
  refine ext_rows (by simp [outer, ofMatrix]) ?_
  simp only [outer, List.map_ofFn, ofMatrix]
  rfl

@[simp] theorem add_ofMatrix (A B : Matrix (Fin r) (Fin c) ℝ) :
    add (ofMatrix A) (ofMatrix B) = .ok (ofMatrix (A + B)) := combine_ofMatrix _ A B

@[simp] theorem sub_ofMatrix (A B : Matrix (Fin r) (Fin c) ℝ) :
    sub (ofMatrix A) (ofMatrix B) = .ok (ofMatrix (A - B)) := combine_ofMatrix _ A B

@[simp] theorem divide_ofMatrix (A : Matrix (Fin r) (Fin c) ℝ) (a : ℝ) :
    divide (ofMatrix A) a = ofMatrix (a⁻¹ • A) := by
  refine ext_rows rfl ?_
  simp only [divide, ofMatrix, List.map_ofFn]
  congr 1
  funext i
  exact Vec.divide_ofFn (A i) a

/-- A row times a column is their inner product. -/
@[simp] theorem rowTimes_ofFn (u v : Fin n → ℝ) :
    rowTimes (List.ofFn u) (List.ofFn v) = u ⬝ᵥ v := by
  have hfold (a : ℝ) (pairs : List (ℝ × ℝ)) :
      pairs.foldl (fun sum p => p.1 * p.2 + sum) a = a + (pairs.map fun p => p.1 * p.2).sum := by
    induction pairs generalizing a with
    | nil => simp
    | cons p pairs ih =>
      rw [List.foldl_cons, ih, List.map_cons, List.sum_cons]
      ring
  cases n with
  | zero => simp [rowTimes]
  | succ n =>
    have hzip : (List.zip (List.ofFn fun i : Fin n => u i.succ) (List.ofFn fun i => v i.succ)).map
        (fun p => p.1 * p.2) = List.ofFn fun i : Fin n => u i.succ * v i.succ := by
      refine List.ext_getElem (by simp) fun i h₁ h₂ => ?_
      simp
    rw [List.ofFn_succ, List.ofFn_succ, rowTimes, hfold, hzip, List.sum_ofFn, dotProduct,
      Fin.sum_univ_succ]

@[simp] theorem mulVec_ofMatrix (A : Matrix (Fin r) (Fin c) ℝ) (v : Fin c → ℝ) :
    mulVec (ofMatrix A) (List.ofFn v) = .ok (List.ofFn (A *ᵥ v)) := by
  rw [mulVec, if_pos (by simp)]
  simp only [ofMatrix, List.map_ofFn]
  congr 2
  funext i
  exact rowTimes_ofFn (A i) v

@[simp] theorem mul_ofMatrix (A : Matrix (Fin r) (Fin c) ℝ) (B : Matrix (Fin c) (Fin k) ℝ) :
    mul (ofMatrix A) (ofMatrix B) = .ok (ofMatrix (A * B)) := by
  have hcolumns : (ofMatrix B).transpose.rows = List.ofFn fun j => List.ofFn (Bᵀ j) := by
    rw [transpose_ofMatrix]
    rfl
  rw [mul, if_pos (by simp)]
  refine congrArg Except.ok (ext_rows ?_ ?_)
  · change (ofMatrix B).transpose.rows.length = k
    rw [hcolumns, List.length_ofFn]
  · change (ofMatrix A).rows.map (fun row => (ofMatrix B).transpose.rows.map (rowTimes row)) = _
    rw [hcolumns]
    simp only [ofMatrix, List.map_ofFn]
    congr 1
    funext i
    simp only [Function.comp_apply]
    congr 1
    funext j
    exact rowTimes_ofFn (A i) (Bᵀ j)

end Operations

end Stepwise.Mat
