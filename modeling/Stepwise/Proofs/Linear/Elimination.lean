import Mathlib.LinearAlgebra.Matrix.ToLinearEquiv
import Mathlib.Tactic.FieldSimp
import Mathlib.Tactic.LinearCombination
import Stepwise.Linear.Elimination
import Stepwise.Proofs.Linear.Matrices

/-!
# Elimination in exact arithmetic

In exact arithmetic elimination decides a square system: it finds the one solution that the
system has, or there is a vector other than zero that every equation takes to zero
(`Stepwise.Equation.solve_cases`). For matrices this says that a system with a regular matrix
is solved and that one with a singular matrix is not (`Stepwise.Mat.solve_ofMatrix`).

The proof goes with the recursion. What moves to the front is the equation with the largest
leading coefficient and the others stay the same (`Stepwise.Equation.exists_pivotFirst`), so if
that coefficient vanishes then all of them do, and the first unit vector is taken to zero.
Otherwise an equation holds at a vector together with the front equation exactly if, without
its first unknown, it holds at the rest of the vector
(`Stepwise.Equation.holds_reduce_iff`), and the front equation says what the first unknown is
(`Stepwise.Equation.holds_front_iff`).
-/

namespace Stepwise

open Matrix

namespace Equation

/-! ### Rows and equations -/

/-- What a row makes of a vector. -/
def inner (row u : Vec ℝ) : ℝ := (List.zipWith (· * ·) row u).sum

/-- The equation holds at a vector. -/
def Holds (e : Equation ℝ) (u : Vec ℝ) : Prop := inner e.coefficients u = e.value

@[simp] theorem inner_cons (a x : ℝ) (row u : Vec ℝ) :
    inner (a :: row) (x :: u) = a * x + inner row u := by
  simp [inner]

theorem inner_zero (row : Vec ℝ) (n : ℕ) : inner row (List.replicate n 0) = 0 := by
  induction row generalizing n with
  | nil => simp [inner]
  | cons a row ih =>
    cases n with
    | zero => simp [inner]
    | succ n => rw [List.replicate_succ, inner_cons, ih, mul_zero, add_zero]

theorem inner_ofFn {n : ℕ} (a u : Fin n → ℝ) : inner (List.ofFn a) (List.ofFn u) = a ⬝ᵥ u := by
  have hzip : List.zipWith (· * ·) (List.ofFn a) (List.ofFn u) = List.ofFn fun i => a i * u i :=
    List.ext_getElem (by simp) fun i h₁ h₂ => by simp
  rw [inner, hzip, List.sum_ofFn]
  rfl

theorem remainder_eq (row u : Vec ℝ) (value : ℝ) : remainder row u value = value - inner row u := by
  induction row generalizing u with
  | nil => simp [remainder, inner]
  | cons a row ih =>
    cases u with
    | nil => simp [remainder, inner]
    | cons x u =>
      have hstep : remainder (a :: row) (x :: u) value = -x * a + remainder row u value := rfl
      rw [hstep, ih, inner_cons]
      ring

/-- The first unknown comes with the leading coefficient. -/
theorem inner_coefficients {e : Equation ℝ} {n : ℕ} (h : e.coefficients.length = n + 1) (x : ℝ)
    (u : Vec ℝ) :
    inner e.coefficients (x :: u) = e.leading * x + inner e.coefficients.tail u := by
  obtain ⟨a, row, hrow⟩ := List.exists_cons_of_length_eq_add_one h
  simp [leading, hrow]

/-- A row less a multiple of another makes what it should of a vector. -/
theorem inner_less {row row' : Vec ℝ} (h : row.length = row'.length) (multiple : ℝ) (u : Vec ℝ) :
    inner (List.zipWith (fun p c => -p * multiple + c) row row') u =
      inner row' u - multiple * inner row u := by
  induction row generalizing row' u with
  | nil =>
    obtain rfl := List.eq_nil_of_length_eq_zero h.symm
    simp [inner]
  | cons a row ih =>
    obtain ⟨b, row', rfl⟩ := List.exists_cons_of_length_eq_add_one h.symm
    cases u with
    | nil => simp [inner]
    | cons x u =>
      rw [List.zipWith_cons_cons, inner_cons, inner_cons, inner_cons,
        ih (Nat.succ.inj h)]
      ring

/-! ### The pivot -/

/-- The place that the search for the pivot comes to is that of an equation whose leading
coefficient is largest: it is the place held so far, or one of those looked at. -/
theorem pivotFrom_cases (best : ℕ) (size : ℝ) (here : ℕ) (rest : List (Equation ℝ)) :
    (pivotFrom best size here rest = best ∧ ∀ e ∈ rest, |e.leading| ≤ size) ∨
      ∃ j, ∃ h : j < rest.length, pivotFrom best size here rest = here + j ∧
        size ≤ |rest[j].leading| ∧ ∀ e ∈ rest, |e.leading| ≤ |rest[j].leading| := by
  induction rest generalizing best size here with
  | nil => exact .inl ⟨rfl, by simp⟩
  | cons e rest ih =>
    rw [pivotFrom, Scalar.abs_real]
    split_ifs with hlt
    · refine .inr ?_
      rcases ih here |e.leading| (here + 1) with ⟨hplace, hle⟩ | ⟨j, hj, hplace, hsize, hle⟩
      · exact ⟨0, by simp, hplace, hlt.le, List.forall_mem_cons.mpr ⟨le_rfl, hle⟩⟩
      · exact ⟨j + 1, Nat.succ_lt_succ hj, by omega, hlt.le.trans hsize,
          List.forall_mem_cons.mpr ⟨hsize, hle⟩⟩
    · rw [not_lt] at hlt
      rcases ih best size (here + 1) with ⟨hplace, hle⟩ | ⟨j, hj, hplace, hsize, hle⟩
      · exact .inl ⟨hplace, List.forall_mem_cons.mpr ⟨hlt, hle⟩⟩
      · exact .inr ⟨j + 1, Nat.succ_lt_succ hj, by omega, hsize,
          List.forall_mem_cons.mpr ⟨hlt.trans hsize, hle⟩⟩

/-- **The equation with the largest leading coefficient moves to the front**, and the system
stays the same otherwise. -/
theorem exists_pivotFirst {system : List (Equation ℝ)} (h : system ≠ []) :
    ∃ front others, pivotFirst system = front :: others ∧ (front :: others).Perm system ∧
      ∀ e ∈ system, |e.leading| ≤ |front.leading| := by
  obtain ⟨e, rest, rfl⟩ := List.exists_cons_of_ne_nil h
  rcases pivotFrom_cases 0 |e.leading| 1 rest with ⟨hplace, hle⟩ | ⟨j, hj, hplace, hsize, hle⟩
  · refine ⟨e, rest, ?_, .refl _, List.forall_mem_cons.mpr ⟨le_rfl, hle⟩⟩
    simp [pivotFirst, hplace]
  · refine ⟨rest[j], rest.set j e, ?_, ?_, List.forall_mem_cons.mpr ⟨hsize, hle⟩⟩
    · rw [Nat.add_comm] at hplace
      simp [pivotFirst, hplace, hj]
    · have hnext : j + 1 < (e :: rest).length := Nat.succ_lt_succ hj
      simpa using List.set_set_perm hnext (Nat.succ_pos rest.length)

/-! ### One unknown less -/

/-- The system that is left once the front equation is taken out of the others. -/
noncomputable def reduced (front : Equation ℝ) (others : List (Equation ℝ)) :
    List (Equation ℝ) :=
  others.map fun e =>
    reduce front.coefficients.tail front.value (e.leading * (1 / front.leading)) e

section Front

variable {front e : Equation ℝ} {others : List (Equation ℝ)} {n : ℕ} {x : ℝ} {u : Vec ℝ}

/-- The front equation says what the first unknown is once the others are known. -/
theorem holds_front_iff (hfront : front.coefficients.length = n + 1)
    (hpivot : front.leading ≠ 0) : front.Holds (x :: u) ↔
      x = remainder front.coefficients.tail u front.value / front.leading := by
  rw [Holds, inner_coefficients hfront, remainder_eq, eq_div_iff hpivot, eq_sub_iff_add_eq,
    mul_comm x]

/-- What is left of a row once the front row is taken out of it. -/
theorem inner_reduce (hfront : front.coefficients.length = n + 1)
    (he : e.coefficients.length = n + 1) (hpivot : front.leading ≠ 0) (x : ℝ) :
    inner (reduce front.coefficients.tail front.value (e.leading * (1 / front.leading))
        e).coefficients u =
      inner e.coefficients (x :: u) -
        e.leading / front.leading * inner front.coefficients (x :: u) := by
  have hlength : front.coefficients.tail.length = e.coefficients.tail.length := by simp [*]
  rw [inner_coefficients he, inner_coefficients hfront, reduce, inner_less hlength]
  field_simp
  ring

/-- **Where the front equation holds**, an equation holds exactly if it holds without its first
unknown. -/
theorem holds_reduce_iff (hfront : front.coefficients.length = n + 1)
    (he : e.coefficients.length = n + 1) (hpivot : front.leading ≠ 0)
    (hx : front.Holds (x :: u)) :
    (reduce front.coefficients.tail front.value (e.leading * (1 / front.leading)) e).Holds u ↔
      e.Holds (x :: u) := by
  rw [Holds, inner_reduce hfront he hpivot x, hx, Holds, reduce]
  constructor <;> intro h <;> linear_combination h

/-- The solutions of a system are those of the smaller one, with the first unknown that the
front equation asks for. -/
theorem forall_holds_iff (hfront : front.coefficients.length = n + 1)
    (hothers : ∀ e ∈ others, e.coefficients.length = n + 1) (hpivot : front.leading ≠ 0) :
    (∀ e ∈ front :: others, e.Holds (x :: u)) ↔
      x = remainder front.coefficients.tail u front.value / front.leading ∧
        ∀ e ∈ reduced front others, e.Holds u := by
  rw [List.forall_mem_cons, reduced, List.forall_mem_map, ← holds_front_iff hfront hpivot]
  exact and_congr_right fun hx =>
    forall₂_congr fun e he => (holds_reduce_iff hfront (hothers e he) hpivot hx).symm

/-- What the smaller system takes to zero is completed by the front equation. -/
theorem exists_kernel_cons (hfront : front.coefficients.length = n + 1)
    (hothers : ∀ e ∈ others, e.coefficients.length = n + 1) (hpivot : front.leading ≠ 0)
    (hu : ∀ e ∈ reduced front others, inner e.coefficients u = 0) :
    ∃ x, ∀ e ∈ front :: others, inner e.coefficients (x :: u) = 0 := by
  have hx : inner front.coefficients
      (-inner front.coefficients.tail u / front.leading :: u) = 0 := by
    rw [inner_coefficients hfront]
    field_simp
    ring
  refine ⟨_, List.forall_mem_cons.mpr ⟨hx, fun e he => ?_⟩⟩
  have hrest := hu _ (List.mem_map_of_mem he)
  rwa [inner_reduce hfront (hothers e he) hpivot, hx, mul_zero, sub_zero] at hrest

end Front

/-! ### The whole system -/

section System

variable {n : ℕ} {system others : List (Equation ℝ)} {front : Equation ℝ}

/-- A system with a pivot is solved if the smaller one is. -/
theorem solve_succ (hfirst : pivotFirst system = front :: others) (hpivot : front.leading ≠ 0) :
    solve (n + 1) system = (solve n (reduced front others)).map fun u =>
      remainder front.coefficients.tail u front.value / front.leading :: u := by
  rw [solve, hfirst]
  simp only [Scalar.ofNat_real, Nat.cast_zero, Nat.cast_one, Scalar.beq_real, hpivot,
    decide_false, Bool.false_eq_true, if_false]
  rw [reduced]
  split
  · rename_i hnone
    rw [hnone]
    rfl
  · rename_i u hu
    rw [hu]
    rfl

/-- Without leading coefficients the first unknown does not matter. -/
theorem inner_first (hwidth : ∀ e ∈ system, e.coefficients.length = n + 1)
    (hleading : ∀ e ∈ system, e.leading = 0) :
    ∀ e ∈ system, inner e.coefficients (1 :: List.replicate n 0) = 0 := by
  intro e he
  rw [inner_coefficients (hwidth e he), inner_zero, hleading e he, zero_mul, zero_add]

/-- **A square system has just one solution, and it is found, or some vector other than zero is
taken to zero.** -/
theorem solve_cases (hsize : system.length = n)
    (hwidth : ∀ e ∈ system, e.coefficients.length = n) :
    (∃ u, solve n system = some u ∧ u.length = n ∧
      ∀ w : Vec ℝ, w.length = n → ((∀ e ∈ system, e.Holds w) ↔ w = u)) ∨
    (solve n system = none ∧ ∃ w : Vec ℝ, w.length = n ∧ w ≠ List.replicate n 0 ∧
      ∀ e ∈ system, inner e.coefficients w = 0) := by
  induction n generalizing system with
  | zero =>
    obtain rfl := List.eq_nil_of_length_eq_zero hsize
    exact .inl ⟨[], rfl, rfl, by simp⟩
  | succ n ih =>
    have hsome : system ≠ [] := by
      rintro rfl
      exact nomatch hsize
    obtain ⟨front, others, hfirst, hperm, hlargest⟩ := exists_pivotFirst hsome
    have hfront := hwidth front (hperm.mem_iff.mp (List.mem_cons_self ..))
    have hothers (e : Equation ℝ) (he : e ∈ others) : e.coefficients.length = n + 1 :=
      hwidth e (hperm.mem_iff.mp (List.mem_cons_of_mem _ he))
    by_cases hpivot : front.leading = 0
    · have hleading (e : Equation ℝ) (he : e ∈ system) : e.leading = 0 := by
        have hle := hlargest e he
        rwa [hpivot, abs_zero, abs_nonpos_iff] at hle
      exact .inr ⟨by simp [solve, hfirst, hpivot], 1 :: List.replicate n 0, by simp,
        by simp [List.replicate_succ], inner_first hwidth hleading⟩
    have hlength : (reduced front others).length = n := by
      simpa [reduced] using hperm.length_eq.trans hsize
    have hnarrow : ∀ e ∈ reduced front others, e.coefficients.length = n := by
      simp_all [reduced, reduce]
    rcases ih hlength hnarrow with
      ⟨u, hu, hulength, hunique⟩ | ⟨hnone, w, hw, hwne, hker⟩
    · refine .inl ⟨_, by rw [solve_succ hfirst hpivot, hu]; rfl, by simp [hulength],
        fun w hw => ?_⟩
      obtain ⟨x, v, rfl⟩ := List.exists_cons_of_length_eq_add_one hw
      simp only [← hperm.mem_iff]
      rw [forall_holds_iff hfront hothers hpivot, hunique v (Nat.succ.inj hw), List.cons.injEq]
      constructor
      · rintro ⟨rfl, rfl⟩
        exact ⟨rfl, rfl⟩
      · rintro ⟨rfl, rfl⟩
        exact ⟨rfl, rfl⟩
    · obtain ⟨x, hx⟩ := exists_kernel_cons hfront hothers hpivot hker
      exact .inr ⟨by rw [solve_succ hfirst hpivot, hnone]; rfl, x :: w, by simp [hw],
        fun hzero => hwne (List.cons.inj hzero).2, fun e he => hx e (hperm.mem_iff.mpr he)⟩

end System

end Equation

/-! ### Matrices -/

namespace Mat

variable {n : ℕ} (A : Matrix (Fin n) (Fin n) ℝ) (b : Fin n → ℝ)

/-- The equations of the system `A u = b`. -/
def equations : List (Equation ℝ) := List.ofFn fun i => ⟨List.ofFn (A i), b i⟩

theorem solve_eq_equations :
    (ofMatrix A).solve (List.ofFn b) = .ok (Equation.solve n (equations A b)) := by
  have hsystem : List.zipWith Equation.mk (ofMatrix A).rows (List.ofFn b) = equations A b :=
    List.ext_getElem (by simp [ofMatrix, equations]) fun i h₁ h₂ => by
      simp [ofMatrix, equations]
  rw [solve, if_pos (by simp), hsystem, height_ofMatrix]

theorem forall_equations_iff {u : Fin n → ℝ} :
    (∀ e ∈ equations A b, e.Holds (List.ofFn u)) ↔ A *ᵥ u = b := by
  rw [equations, List.forall_mem_ofFn_iff, funext_iff]
  simp only [Equation.Holds, Equation.inner_ofFn]
  rfl

/-- **A regular system is solved, and a singular one is not.** -/
theorem solve_ofMatrix :
    (A.det ≠ 0 ∧ ∃ u, (ofMatrix A).solve (List.ofFn b) = .ok (some (List.ofFn u)) ∧
      A *ᵥ u = b) ∨
    (A.det = 0 ∧ (ofMatrix A).solve (List.ofFn b) = .ok none) := by
  rw [solve_eq_equations]
  have hsize : (equations A b).length = n := List.length_ofFn
  have hwidth : ∀ e ∈ equations A b, e.coefficients.length = n := by simp [equations]
  rcases Equation.solve_cases hsize hwidth with
    ⟨u, hu, hlength, hunique⟩ | ⟨hnone, w, hw, hwne, hker⟩
  · obtain ⟨u, rfl⟩ := Vec.exists_eq_ofFn hlength
    have hiff (w : Fin n → ℝ) : A *ᵥ w = b ↔ w = u :=
      (forall_equations_iff A b).symm.trans
        ((hunique _ List.length_ofFn).trans List.ofFn_inj)
    have hAu : A *ᵥ u = b := (hiff u).mpr rfl
    refine .inl ⟨fun hdet => ?_, u, by rw [hu], hAu⟩
    -- What the matrix takes to zero could be added to the solution.
    obtain ⟨w, hwne, hw⟩ := Matrix.exists_mulVec_eq_zero_iff.mpr hdet
    have hsum : u + w = u := (hiff _).mp (by rw [mulVec_add, hw, hAu, add_zero])
    exact hwne (left_eq_add.mp hsum.symm)
  · obtain ⟨w, rfl⟩ := Vec.exists_eq_ofFn hw
    refine .inr ⟨Matrix.exists_mulVec_eq_zero_iff.mp ⟨w, ?_, ?_⟩, by rw [hnone]⟩
    · rintro rfl
      exact hwne (by simp [← List.ofFn_const, Pi.zero_def])
    · rw [equations, List.forall_mem_ofFn_iff] at hker
      funext i
      exact (Equation.inner_ofFn (A i) w).symm.trans (hker i)

/-- The solution that elimination finds is one. -/
theorem mulVec_of_solve {A : Matrix (Fin n) (Fin n) ℝ} {b : Fin n → ℝ} {u : Vec ℝ}
    (h : (ofMatrix A).solve (List.ofFn b) = .ok (some u)) :
    ∃ v, u = List.ofFn v ∧ A *ᵥ v = b := by
  rcases solve_ofMatrix A b with ⟨-, v, hv, hAv⟩ | ⟨-, hnone⟩
  · cases h.symm.trans hv
    exact ⟨v, rfl, hAv⟩
  · exact nomatch h.symm.trans hnone

variable {A} in
/-- A regular system is solved by the inverse. -/
theorem solve_of_det_ne_zero (hA : A.det ≠ 0) :
    (ofMatrix A).solve (List.ofFn b) = .ok (some (List.ofFn (A⁻¹ *ᵥ b))) := by
  rcases solve_ofMatrix A b with ⟨-, v, hv, rfl⟩ | ⟨hdet, -⟩
  · rw [hv, mulVec_mulVec, nonsing_inv_mul _ (isUnit_iff_ne_zero.mpr hA), one_mulVec]
  · exact absurd hdet hA

end Mat

end Stepwise
