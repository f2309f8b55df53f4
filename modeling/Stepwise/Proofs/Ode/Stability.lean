import Mathlib.Algebra.Module.BigOperators
import Mathlib.Data.Matrix.Basic
import Mathlib.Data.Nat.Factorial.Basic
import Mathlib.Tactic.FinCases
import Mathlib.Tactic.IntervalCases
import Mathlib.Tactic.NormNum
import Stepwise.Proofs.Linear.Matrices
import Stepwise.Proofs.Ode.Stages

/-!
# Runge–Kutta steps of linear equations

Where the right-hand side multiplies with a matrix `M`, an explicit Runge–Kutta step multiplies the
state with a polynomial in `k M` whose coefficients the tableau decides, the stability polynomial of
the scheme (`Stepwise.Ode.step_linear`).

The slope of a stage is `M` times a sum of earlier ones, so every reference from a stage to another
brings one more power of `M`. A stage is therefore the sum over all chains of references that start
at it (`Stepwise.Ode.linearStage`), and a chain of `j` references comes with the power `j` of the
matrix of the coefficients. In an explicit scheme every reference goes back, so no chain is as long
as there are stages (`Stepwise.Ode.coupling_pow_stages`) and the sums end. That these are the stages
that the step computes is read off the equations of the scheme, which have one solution
(`Stepwise.Ode.stages_iff`).
-/

namespace Stepwise.Ode

open Matrix

open scoped Nat

/-! ### Chains of references -/

section Coupling

variable (s : Tableau ℝ)

/-- The coefficients of stages in stages. -/
noncomputable def Tableau.coupling : Matrix (Fin s.stages) (Fin s.stages) ℝ :=
  Matrix.of fun i j => s.a.entry i j

/-- The weights of the stages. -/
noncomputable def Tableau.weights : Fin s.stages → ℝ := fun i => s.b.getD i 0

variable {s}

/-- In an explicit scheme a stage does not refer to itself or to a later one. -/
theorem coupling_eq_zero (hexplicit : s.isExplicit = true) {i j : Fin s.stages} (hij : i ≤ j) :
    s.coupling i j = 0 := by
  have hj : (j : ℕ) < (s.a.rows.getD i []).length := j.isLt.trans_eq (length_row s i).symm
  have hentry : s.coupling i j = (s.a.rows.getD i [])[(j : ℕ)] := List.getD_eq_getElem _ _ hj
  have hmem : s.coupling i j ∈ (s.a.rows.getD i []).drop i :=
    List.mem_drop_iff_getElem.mpr
      ⟨j - i, by omega, by simp [hentry, Nat.add_sub_cancel' (Fin.le_def.mp hij)]⟩
  simpa using List.all_eq_true.mp (zeroFrom_of_isExplicit hexplicit i) _ hmem

/-- A chain of references goes back by at least a stage with each of them. -/
theorem coupling_pow_eq_zero (hexplicit : s.isExplicit = true) {n : ℕ} {i j : Fin s.stages}
    (hij : (i : ℕ) < j + n) : (s.coupling ^ n) i j = 0 := by
  induction n generalizing i with
  | zero =>
    have hne : i ≠ j := by
      rintro rfl
      omega
    rw [pow_zero, one_apply_ne hne]
  | succ n ih =>
    rw [pow_succ', mul_apply]
    refine Finset.sum_eq_zero fun l _ => ?_
    rcases Nat.lt_or_ge l i with hlt | hge
    · rw [ih (by omega), mul_zero]
    · rw [coupling_eq_zero hexplicit hge, zero_mul]

/-- **No chain of references is as long as there are stages.** -/
theorem coupling_pow_stages (hexplicit : s.isExplicit = true) : s.coupling ^ s.stages = 0 := by
  ext i j
  exact coupling_pow_eq_zero hexplicit (by omega)

/-- A chain that starts at a stage goes on from one that the stage refers to. -/
theorem coupling_dotProduct (i : Fin s.stages) (n : ℕ) :
    s.coupling i ⬝ᵥ (s.coupling ^ n *ᵥ 1) = (s.coupling ^ (n + 1) *ᵥ 1) i := by
  rw [pow_succ', ← mulVec_mulVec]
  rfl

end Coupling

/-! ### Stages of a linear equation -/

section Linear

variable {d : ℕ} {s : Tableau ℝ} {M : Matrix (Fin d) (Fin d) ℝ} {v : Fin d → ℝ} {k t : ℝ}
  {f : Field ℝ}

/-- A stage of a linear equation: a sum over the chains of references that start at it. -/
noncomputable def linearStage (s : Tableau ℝ) (M : Matrix (Fin d) (Fin d) ℝ) (v : Fin d → ℝ)
    (k : ℝ) (i : Fin s.stages) : Fin d → ℝ :=
  ∑ j ∈ Finset.range s.stages, (k ^ j * (s.coupling ^ j *ᵥ 1) i) • (M ^ (j + 1) *ᵥ v)

/-- Stages that are added up with factors `w`. -/
theorem sum_linearStage (w : Fin s.stages → ℝ) :
    k • ∑ i, w i • linearStage s M v k i = ∑ j ∈ Finset.range s.stages,
      (k ^ (j + 1) * (w ⬝ᵥ (s.coupling ^ j *ᵥ 1))) • (M ^ (j + 1) *ᵥ v) := by
  simp only [linearStage, Finset.smul_sum]
  rw [Finset.sum_comm]
  refine Finset.sum_congr rfl fun j _ => ?_
  rw [dotProduct, Finset.mul_sum, Finset.sum_smul]
  refine Finset.sum_congr rfl fun i _ => ?_
  rw [smul_smul, smul_smul]
  congr 1
  ring

/-- **These are the stages**: each is the slope at the point that the others lead to. -/
theorem linearStage_eq (hexplicit : s.isExplicit = true) (t : ℝ) (i : Fin s.stages) :
    linearStage s M v k i = stageSlope s (fun u _ => M *ᵥ u) v t k (linearStage s M v k) i := by
  have hlast : (s.coupling ^ s.stages *ᵥ (1 : Fin s.stages → ℝ)) i = 0 := by
    rw [coupling_pow_stages hexplicit, zero_mulVec, Pi.zero_apply]
  have hpoint : k • ∑ j : Fin s.stages, s.a.entry i j • linearStage s M v k j =
      ∑ j ∈ Finset.range s.stages,
        (k ^ (j + 1) * (s.coupling ^ (j + 1) *ᵥ 1) i) • (M ^ (j + 1) *ᵥ v) := by
    simp only [← coupling_dotProduct]
    exact sum_linearStage (s.coupling i)
  calc linearStage s M v k i
    _ = ∑ j ∈ Finset.range (s.stages + 1),
          (k ^ j * (s.coupling ^ j *ᵥ 1) i) • (M ^ (j + 1) *ᵥ v) := by
      rw [Finset.sum_range_succ, hlast, mul_zero, zero_smul, add_zero, linearStage]
    _ = M *ᵥ v + ∑ j ∈ Finset.range s.stages,
          (k ^ (j + 1) * (s.coupling ^ (j + 1) *ᵥ 1) i) • (M *ᵥ (M ^ (j + 1) *ᵥ v)) := by
      rw [Finset.sum_range_succ', add_comm]
      simp only [pow_zero, one_mulVec, Pi.one_apply, one_mul, one_smul, zero_add, pow_one,
        mulVec_mulVec, ← pow_succ' M]
    _ = stageSlope s (fun u _ => M *ᵥ u) v t k (linearStage s M v k) i := by
      simp only [stageSlope, hpoint, mulVec_add, mulVec_sum, mulVec_smul]

/-- An explicit step leads where the one solution of the equations for its stages leads. -/
theorem explicitNext_of_stages {slope : (Fin d → ℝ) → ℝ → Fin d → ℝ}
    (hf : ∀ u t, f (List.ofFn u) t = .ok (List.ofFn (slope u t))) (hexplicit : s.isExplicit = true)
    {K : Fin s.stages → Fin d → ℝ} (hK : ∀ i, K i = stageSlope s slope v t k K i) :
    s.explicitNext f ⟨List.ofFn v, t⟩ k = .ok (List.ofFn (nextState s v k K)) := by
  rw [explicitNext_eq hf, ← (stages_iff hexplicit K).mp hK,
    combination_ofFn (show s.b.length = s.stages from rfl)]
  rfl

/-- The next state is the state times a polynomial in the matrix. -/
theorem explicitNext_linear (hf : ∀ u t, f (List.ofFn u) t = .ok (List.ofFn (M *ᵥ u)))
    (hexplicit : s.isExplicit = true) :
    s.explicitNext f ⟨List.ofFn v, t⟩ k = .ok (List.ofFn (v + ∑ j ∈ Finset.range s.stages,
      (k ^ (j + 1) * (s.weights ⬝ᵥ (s.coupling ^ j *ᵥ 1))) • (M ^ (j + 1) *ᵥ v))) := by
  rw [explicitNext_of_stages hf hexplicit (linearStage_eq hexplicit t), ← sum_linearStage s.weights]
  rfl

end Linear

/-! ### The preset schemes -/

section Presets

theorem ofPreset_isExplicit (preset : Tableau.Preset) :
    (Tableau.ofPreset preset : Tableau ℝ).isExplicit = true := by
  cases preset <;> simp [Tableau.isExplicit, Tableau.ofPreset, Tableau.zeroFrom]

theorem coupling_heun : (Tableau.ofPreset .heunThirdOrder : Tableau ℝ).coupling =
    !![0, 0, 0; 1 / 3, 0, 0; 0, 2 / 3, 0] := by
  ext (i : Fin 3) (j : Fin 3)
  change (Tableau.ofPreset .heunThirdOrder : Tableau ℝ).a.entry i j = _
  fin_cases i <;> fin_cases j <;> simp [Mat.entry, Tableau.ofPreset]

theorem coupling_classical : (Tableau.ofPreset .classicalFourthOrder : Tableau ℝ).coupling =
    !![0, 0, 0, 0; 1 / 2, 0, 0, 0; 0, 1 / 2, 0, 0; 0, 0, 1, 0] := by
  ext (i : Fin 4) (j : Fin 4)
  change (Tableau.ofPreset .classicalFourthOrder : Tableau ℝ).a.entry i j = _
  fin_cases i <;> fin_cases j <;> simp [Mat.entry, Tableau.ofPreset]

theorem weights_heun : (Tableau.ofPreset .heunThirdOrder : Tableau ℝ).weights =
    ![1 / 4, 0, 3 / 4] := by
  ext (i : Fin 3)
  change (Tableau.ofPreset .heunThirdOrder : Tableau ℝ).b.getD i 0 = _
  fin_cases i <;> simp [Tableau.ofPreset]

theorem weights_classical : (Tableau.ofPreset .classicalFourthOrder : Tableau ℝ).weights =
    ![1 / 6, 1 / 3, 1 / 3, 1 / 6] := by
  ext (i : Fin 4)
  change (Tableau.ofPreset .classicalFourthOrder : Tableau ℝ).b.getD i 0 = _
  fin_cases i <;> simp [Tableau.ofPreset]

/-- **The presets have the coefficients of the exponential series**, as many as they have
stages. -/
theorem weights_ofPreset (preset : Tableau.Preset) {j : ℕ}
    (hj : j < (Tableau.ofPreset preset : Tableau ℝ).stages) :
    (Tableau.ofPreset preset).weights ⬝ᵥ ((Tableau.ofPreset preset).coupling ^ j *ᵥ 1) =
      ((j + 1)! : ℝ)⁻¹ := by
  cases preset with
  | heunThirdOrder =>
    change j < 3 at hj
    rw [weights_heun, coupling_heun]
    change ![1 / 4, 0, 3 / 4] ⬝ᵥ
      ((!![0, 0, 0; 1 / 3, 0, 0; 0, 2 / 3, 0] : Matrix (Fin 3) (Fin 3) ℝ) ^ j *ᵥ 1) = _
    interval_cases j <;>
      simp [dotProduct, mulVec, mul_apply, pow_succ, Fin.sum_univ_three, Nat.factorial_succ] <;>
        norm_num
  | classicalFourthOrder =>
    change j < 4 at hj
    rw [weights_classical, coupling_classical]
    change ![1 / 6, 1 / 3, 1 / 3, 1 / 6] ⬝ᵥ
      ((!![0, 0, 0, 0; 1 / 2, 0, 0, 0; 0, 1 / 2, 0, 0; 0, 0, 1, 0] : Matrix (Fin 4) (Fin 4) ℝ) ^ j *ᵥ
        1) = _
    interval_cases j <;>
      simp [dotProduct, mulVec, mul_apply, pow_succ, Fin.sum_univ_four, Nat.factorial_succ] <;>
        norm_num

end Presets

/-! ### Steps of a linear equation -/

section Steps

variable {d : ℕ}

/-- The exponential series of a matrix up to degree `n`. -/
noncomputable def expTaylor (n : ℕ) (A : Matrix (Fin d) (Fin d) ℝ) : Matrix (Fin d) (Fin d) ℝ :=
  ∑ j ∈ Finset.range (n + 1), (j ! : ℝ)⁻¹ • A ^ j

theorem expTaylor_mulVec (n : ℕ) (M : Matrix (Fin d) (Fin d) ℝ) (v : Fin d → ℝ) (k : ℝ) :
    expTaylor n (k • M) *ᵥ v =
      v + ∑ j ∈ Finset.range n, (k ^ (j + 1) * ((j + 1)! : ℝ)⁻¹) • (M ^ (j + 1) *ᵥ v) := by
  rw [expTaylor, sum_mulVec, Finset.sum_range_succ', add_comm]
  simp only [smul_pow, smul_smul, smul_mulVec, pow_zero, Nat.factorial_zero, Nat.cast_one, inv_one,
    one_smul, one_mulVec, mul_comm (k ^ _)]

variable {M : Matrix (Fin d) (Fin d) ℝ} {f : Field ℝ}

/-- **An explicit step of a linear equation multiplies with the stability polynomial.** In exact
arithmetic, where the right-hand side is multiplication with `M`, the step of an explicit scheme with
`s` stages from the state `v` computes `v + ∑ kʲ (b · aʲ⁻¹ 1) Mʲ v`, with `j` from `1` to `s`. For the
preset schemes this is the exponential series of `k M` up to the number of their stages. -/
theorem step_linear (hf : ∀ u t, f (List.ofFn u) t = .ok (List.ofFn (M *ᵥ u))) (v : Fin d → ℝ)
    (t k : ℝ) (m : Descent.Minimiser ℝ) :
    (∀ s : Tableau ℝ, s.isExplicit = true →
      s.step f ⟨List.ofFn v, t⟩ k m = .explicit (.ok (List.ofFn (v +
        ∑ j ∈ Finset.range s.stages,
          (k ^ (j + 1) * (s.weights ⬝ᵥ (s.coupling ^ j *ᵥ 1))) • (M ^ (j + 1) *ᵥ v))))) ∧
    (Tableau.ofPreset .heunThirdOrder).step f ⟨List.ofFn v, t⟩ k m =
      .explicit (.ok (List.ofFn (expTaylor 3 (k • M) *ᵥ v))) ∧
    (Tableau.ofPreset .classicalFourthOrder).step f ⟨List.ofFn v, t⟩ k m =
      .explicit (.ok (List.ofFn (expTaylor 4 (k • M) *ᵥ v))) := by
  have hstep (s : Tableau ℝ) (hexplicit : s.isExplicit = true) :
      s.step f ⟨List.ofFn v, t⟩ k m = .explicit (.ok (List.ofFn (v +
        ∑ j ∈ Finset.range s.stages,
          (k ^ (j + 1) * (s.weights ⬝ᵥ (s.coupling ^ j *ᵥ 1))) • (M ^ (j + 1) *ᵥ v)))) := by
    rw [Tableau.step, if_pos hexplicit, explicitNext_linear hf hexplicit]
  have hpreset (preset : Tableau.Preset) :
      (Tableau.ofPreset preset).step f ⟨List.ofFn v, t⟩ k m =
        .explicit (.ok (List.ofFn
          (expTaylor (Tableau.ofPreset preset : Tableau ℝ).stages (k • M) *ᵥ v))) := by
    rw [hstep _ (ofPreset_isExplicit preset), expTaylor_mulVec]
    congr 4
    refine Finset.sum_congr rfl fun j hj => ?_
    rw [weights_ofPreset preset (Finset.mem_range.mp hj)]
  exact ⟨hstep, hpreset .heunThirdOrder, hpreset .classicalFourthOrder⟩

/-- A quarter turn in the plane. -/
def quarterTurn : Matrix (Fin 2) (Fin 2) ℝ := !![0, 1; -1, 0]

theorem quarterTurn_pow_succ (n : ℕ) (a b : ℝ) :
    quarterTurn ^ (n + 1) *ᵥ ![a, b] = quarterTurn ^ n *ᵥ ![b, -a] := by
  have hturn : quarterTurn *ᵥ ![a, b] = ![b, -a] := by
    ext i
    fin_cases i <;> simp [quarterTurn, mulVec, dotProduct, Fin.sum_univ_two]
  rw [pow_succ, ← mulVec_mulVec, hturn]

/-- The motion on a circle, where the classical scheme gives the cosine and the sine of the step to
fourth order. -/
theorem step_linear_circle :
    (Tableau.ofPreset .heunThirdOrder : Tableau ℝ).isExplicit = true ∧
    (Tableau.ofPreset .heunThirdOrder).step (fun u _ => (Mat.ofMatrix quarterTurn).mulVec u)
        ⟨List.ofFn ![1, 0], 0⟩ 1 .new =
      .explicit (.ok (List.ofFn (![1, 0] +
        ∑ j ∈ Finset.range (Tableau.ofPreset .heunThirdOrder : Tableau ℝ).stages,
          (1 ^ (j + 1) * ((Tableau.ofPreset .heunThirdOrder).weights ⬝ᵥ
            ((Tableau.ofPreset .heunThirdOrder).coupling ^ j *ᵥ 1))) •
              (quarterTurn ^ (j + 1) *ᵥ ![1, 0])))) ∧
    (Tableau.ofPreset .classicalFourthOrder).step
        (fun u _ => (Mat.ofMatrix quarterTurn).mulVec u) ⟨List.ofFn ![1, 0], 0⟩ 1 .new =
      .explicit (.ok [1 - 1 / 2 + 1 / 24, -1 + 1 / 6]) := by
  obtain ⟨hall, -, hclassical⟩ :=
    step_linear (f := fun u _ => (Mat.ofMatrix quarterTurn).mulVec u)
      (fun u _ => Mat.mulVec_ofMatrix quarterTurn u) ![1, 0] 0 1 .new
  have hpowers : expTaylor 4 ((1 : ℝ) • quarterTurn) *ᵥ ![1, 0] =
      ![1 - 1 / 2 + 1 / 24, -1 + 1 / 6] := by
    rw [expTaylor_mulVec]
    simp only [Finset.sum_range_succ, Finset.sum_range_zero, quarterTurn_pow_succ, pow_zero,
      one_mulVec]
    ext i
    fin_cases i <;> norm_num [Nat.factorial_succ]
  rw [hpowers] at hclassical
  exact ⟨ofPreset_isExplicit _, hall _ (ofPreset_isExplicit _), hclassical.trans (by simp)⟩

end Steps

end Stepwise.Ode
