import Mathlib.LinearAlgebra.FiniteDimensional.Lemmas
import Stepwise.Proofs.Descent.Unobserved
import Stepwise.Proofs.Descent.Quadratics

/-!
# Quasi-Newton descents on quadratics end

On a quadratic every exact step of a quasi-Newton descent teaches the estimate one dimension of
the matrix. After some steps the estimate inverts the matrix on the space that the steps span,
and the gradient is orthogonal to that space (`Stepwise.Descent.Learnt`). This is kept by a
further step (`Stepwise.Descent.Learnt.next`): since the estimate is symmetric, the next step is
conjugate to all earlier ones, so that the update keeps what has been learnt and the gradient stays
orthogonal; the secant equation adds the step itself. The step is not among what has been
learnt, for it goes downhill and nothing learnt does. So after as many steps as there are
dimensions the gradient vanishes, unless the descent has ended before
(`Stepwise.Descent.descend_terminates`).

There is one way in which it can fail before. The line search may not move, because the slope
along the unit direction is as good as zero although the gradient is long; then the update is asked
for a step that goes nowhere.
-/

namespace Stepwise.Descent

open Matrix

variable {n : ℕ} {A H : Matrix (Fin n) (Fin n) ℝ} {b x x₀ : Fin n → ℝ} {objective : Objective ℝ}
  {s : Settings ℝ} {W : Submodule ℝ (Fin n → ℝ)}

/-! ### What has been learnt -/

/-- What a quasi-Newton descent at `x` with the estimate `H` has learnt of the matrix `A`: on the
space `W` of the steps made so far the estimate inverts it, and the gradient has no component
there. -/
structure Learnt (A : Matrix (Fin n) (Fin n) ℝ) (b x : Fin n → ℝ) (H : Matrix (Fin n) (Fin n) ℝ)
    (W : Submodule ℝ (Fin n → ℝ)) : Prop where
  /-- The estimate is positive definite. -/
  posDef : H.PosDef
  /-- It inverts the matrix. -/
  inverse : ∀ w ∈ W, H *ᵥ A *ᵥ w = w
  /-- The gradient is orthogonal. -/
  orthogonal : ∀ w ∈ W, affine A b x ⬝ᵥ w = 0

/-- At the start nothing is learnt. -/
theorem Learnt.start (A : Matrix (Fin n) (Fin n) ℝ) (b x : Fin n → ℝ) : Learnt A b x 1 ⊥ where
  posDef := .one
  inverse w hw := by rw [(Submodule.mem_bot ℝ).mp hw, mulVec_zero, mulVec_zero]
  orthogonal w hw := by rw [(Submodule.mem_bot ℝ).mp hw, dotProduct_zero]

/-- The quasi-Newton direction at a point. -/
def heading (A : Matrix (Fin n) (Fin n) ℝ) (b x : Fin n → ℝ) (H : Matrix (Fin n) (Fin n) ℝ) :
    Fin n → ℝ := -(H *ᵥ affine A b x)

/-- The step that an exact line search makes in this direction. -/
noncomputable def descentStep (A : Matrix (Fin n) (Fin n) ℝ) (b x : Fin n → ℝ)
    (H : Matrix (Fin n) (Fin n) ℝ) : Fin n → ℝ := exactStep A (affine A b x) (heading A b x H)

namespace Learnt

variable (h : Learnt A b x H W)

include h

/-- Where all is learnt the gradient vanishes. -/
theorem affine_eq_zero (hW : W = ⊤) : affine A b x = 0 := by
  have hself := h.orthogonal (affine A b x) (by rw [hW]; exact Submodule.mem_top)
  exact dotProduct_self_eq_zero.mp hself

theorem heading_ne_zero (hg : affine A b x ≠ 0) : heading A b x H ≠ 0 := by
  intro hzero
  have hdown := dotProduct_direction_neg h.posDef hg
  rw [← heading, hzero, dotProduct_zero] at hdown
  exact hdown.false

/-- The step goes downhill. -/
theorem dotProduct_step_ne_zero (hA : A.PosDef) (hg : affine A b x ≠ 0) :
    affine A b x ⬝ᵥ descentStep A b x H ≠ 0 := by
  have hdown := (dotProduct_direction_neg h.posDef hg).ne
  have hcurvature := (dotProduct_mulVec_pos hA (h.heading_ne_zero hg)).ne'
  rw [← heading] at hdown
  rw [descentStep, exactStep, dotProduct_smul, smul_eq_mul]
  exact mul_ne_zero (neg_ne_zero.mpr (div_ne_zero hdown hcurvature)) hdown

/-- **The step is conjugate to all that has been learnt.** -/
theorem step_conjugate {w : Fin n → ℝ} (hw : w ∈ W) : descentStep A b x H ⬝ᵥ A *ᵥ w = 0 := by
  -- The estimate moves over to the other side, where it inverts the matrix.
  have hheading : heading A b x H ⬝ᵥ A *ᵥ w = 0 := by
    rw [heading, neg_dotProduct, mulVec_dotProduct_comm h.posDef, h.inverse w hw,
      h.orthogonal w hw, neg_zero]
  rw [descentStep, exactStep, smul_dotProduct, hheading, smul_zero]

/-- The step is not one that has been made before. -/
theorem step_notMem (hA : A.PosDef) (hg : affine A b x ≠ 0) : descentStep A b x H ∉ W :=
  fun hmem => h.dotProduct_step_ne_zero hA hg (h.orthogonal _ hmem)

theorem step_ne_zero (hA : A.PosDef) (hg : affine A b x ≠ 0) : descentStep A b x H ≠ 0 :=
  fun hzero => h.step_notMem hA hg (hzero ▸ W.zero_mem)

/-- **After the step what has been learnt is still true, and the step is learnt too.** -/
theorem next (hA : A.PosDef) (hg : affine A b x ≠ 0) :
    Learnt A b (x + descentStep A b x H)
      (bfgs H (descentStep A b x H) (A *ᵥ descentStep A b x H))
      (W ⊔ ℝ ∙ descentStep A b x H) := by
  have hcurvature := dotProduct_mulVec_pos hA (h.step_ne_zero hA hg)
  have hconjugate {w : Fin n → ℝ} (hw : w ∈ W) : A *ᵥ descentStep A b x H ⬝ᵥ w = 0 := by
    rw [mulVec_dotProduct_comm hA, h.step_conjugate hw]
  refine ⟨bfgs_posDef h.posDef hcurvature, ?_, ?_⟩
  · intro v hv
    obtain ⟨w, hw, u, hu, rfl⟩ := Submodule.mem_sup.mp hv
    obtain ⟨a, rfl⟩ := Submodule.mem_span_singleton.mp hu
    rw [mulVec_add, mulVec_add, mulVec_smul, mulVec_smul, bfgs_mulVec_change hcurvature.ne',
      bfgs_mulVec_of_conjugate (h.inverse w hw) (h.step_conjugate hw) (hconjugate hw)]
  · intro v hv
    obtain ⟨w, hw, u, hu, rfl⟩ := Submodule.mem_sup.mp hv
    obtain ⟨a, rfl⟩ := Submodule.mem_span_singleton.mp hu
    have hdirection := affine_exactStep_dotProduct (b := b) hA x (h.heading_ne_zero hg)
    have hstep : affine A b (x + descentStep A b x H) ⬝ᵥ descentStep A b x H = 0 := by
      rw [← descentStep] at hdirection
      nth_rewrite 2 [descentStep]
      rw [exactStep, dotProduct_smul, hdirection, smul_zero]
    rw [dotProduct_add, dotProduct_smul, hstep, smul_zero, add_zero, affine_add, add_dotProduct,
      h.orthogonal w hw, hconjugate hw, add_zero]

end Learnt

/-! ### The descent -/

/-- The descent on the quadratic comes to `x` as iterate number `i`, with the estimate `H`, after
learning the matrix on a space with as many dimensions as steps were made. -/
def Knows (f : Oracle ℝ) (s : Settings ℝ) (A : Matrix (Fin n) (Fin n) ℝ) (b x₀ : Fin n → ℝ)
    (i : ℕ) : Prop :=
  ∃ x H W, Arrives f s (List.ofFn x₀) i (standingAt (affine A b) x H) ∧ Learnt A b x H W ∧
    Module.finrank ℝ W = i

/-- The descent comes to an iterate that the line search does not leave: the gradient is longer
than the tolerance there, but the slope along the unit direction is less steep. -/
structure Stalls (f : Oracle ℝ) (s : Settings ℝ) (A : Matrix (Fin n) (Fin n) ℝ)
    (b x₀ x : Fin n → ℝ) (H : Matrix (Fin n) (Fin n) ℝ) (i : ℕ) : Prop where
  /-- The descent comes there. -/
  arrives : Arrives f s (List.ofFn x₀) i (standingAt (affine A b) x H)
  /-- The gradient is long. -/
  long : s.epsilon < √(affine A b x ⬝ᵥ affine A b x)
  /-- The slope is not steep. -/
  flat : |affine A b x ⬝ᵥ unit (heading A b x H)| < s.epsilon
  /-- The line search lands where it started. -/
  land_eq : ∃ hit, lineSearch f s (List.ofFn x) (List.ofFn (heading A b x H)) =
    .ok ⟨List.ofFn x, hit⟩

/-- The ways in which a quasi-Newton descent on a quadratic ends. -/
inductive Terminates (f : Oracle ℝ) (s : Settings ℝ) (A : Matrix (Fin n) (Fin n) ℝ)
    (b x₀ : Fin n → ℝ) : Except (Failure (Error ℝ)) (Solution ℝ) → Prop
  /-- It converges after no more steps than there are dimensions. -/
  | converged {sol : Solution ℝ} (hending : sol.ending = .converged) (hiters : sol.iters ≤ n) :
      Terminates f s A b x₀ (.ok sol)
  /-- It stalls at an iterate, and the update cannot divide by zero. -/
  | stalled {x : Fin n → ℝ} {H : Matrix (Fin n) (Fin n) ℝ} {i : ℕ} (hi : i < n)
      (hstalls : Stalls f s A b x₀ x H i) :
      Terminates f s A b x₀ (.error (.error (.breakdown (.curvaturePair 0))))

section Descents

variable (hA : A.PosDef) (hq : IsQuadratic objective A b) (hmethod : s.method = .quasiNewton)
  (hsearch : s.search = .newton) (hepsilon : 0 < s.epsilon)

include hq hmethod in
/-- The descent starts with the identity for an estimate. -/
theorem Arrives.start : Arrives (objective.complete s.step) s (List.ofFn x₀) 0
    (standingAt (affine A b) x₀ 1) := by
  refine Arrives.zero ?_
  rw [hmethod, Guide.start, hq.hasGradient.complete, ok_bind, List.length_ofFn, Mat.identity_real]
  rfl

include hq hmethod in
/-- At the start nothing is known. -/
theorem Knows.start : Knows (objective.complete s.step) s A b x₀ 0 :=
  ⟨x₀, 1, ⊥, Arrives.start hq hmethod, .start A b x₀, finrank_bot ℝ _⟩

/-- What there is to say of a descent with short gradient. -/
theorem terminates_of_short {i : ℕ} {H : Matrix (Fin n) (Fin n) ℝ}
    (hq : IsQuadratic objective A b)
    (harrives : Arrives (objective.complete s.step) s (List.ofFn x₀) i
      (standingAt (affine A b) x H)) (hcap : i < s.maxIters) (hi : i ≤ n)
    (hshort : √(affine A b x ⬝ᵥ affine A b x) ≤ s.epsilon) :
    Terminates (objective.complete s.step) s A b x₀
      (descend (objective.complete s.step) s .silent () (List.ofFn x₀)).outcome := by
  rw [harrives.converged hcap (hq.hasGradient.complete s.step x) (hq.value_eq x)
    (by rwa [Vec.norm_ofFn])]
  exact .converged rfl hi

include hA hq hsearch hepsilon in
/-- Where the slope is steep the line search makes the exact step, and the update learns it. -/
theorem Arrives.succ_of_steep {i : ℕ}
    (harrives : Arrives (objective.complete s.step) s (List.ofFn x₀) i
      (standingAt (affine A b) x H)) (hlearnt : Learnt A b x H W) (hcap : 2 ≤ s.maxIters)
    (hlong : ¬√(affine A b x ⬝ᵥ affine A b x) ≤ s.epsilon)
    (hsteep : ¬|affine A b x ⬝ᵥ unit (heading A b x H)| < s.epsilon) :
    Arrives (objective.complete s.step) s (List.ofFn x₀) (i + 1)
      (standingAt (affine A b) (x + descentStep A b x H)
        (bfgs H (descentStep A b x H) (A *ᵥ descentStep A b x H))) := by
  have hg : affine A b x ≠ 0 := affine_ne_zero hepsilon hlong
  obtain ⟨hit, hland⟩ := lineSearch_quadratic hq hA hsearch hepsilon hcap hlong
    (hlearnt.heading_ne_zero hg)
  rw [if_neg hsteep] at hland
  have hadvance := advance_standingAt hq.hasGradient (affine_strictlyMonotone hA b) hland
  have hmoves : x + descentStep A b x H ≠ x := fun hstay =>
    hlearnt.step_ne_zero hA hg (left_eq_add.mp hstay.symm)
  rw [← descentStep, if_neg hmoves, affine_sub, add_sub_cancel_left] at hadvance
  exact harrives.succ (hq.hasGradient.complete s.step x) (hq.value_eq x)
    (by rwa [Vec.norm_ofFn]) hadvance

include hA hq hsearch hepsilon in
/-- **One step**: the descent ends, or the next iterate is reached and one more dimension learnt. -/
theorem Knows.next {i : ℕ} (h : Knows (objective.complete s.step) s A b x₀ i) (hi : i < n)
    (hcap : max n 1 < s.maxIters) :
    Terminates (objective.complete s.step) s A b x₀
        (descend (objective.complete s.step) s .silent () (List.ofFn x₀)).outcome ∨
      Knows (objective.complete s.step) s A b x₀ (i + 1) := by
  obtain ⟨x, H, W, harrives, hlearnt, hdim⟩ := h
  by_cases hshort : √(affine A b x ⬝ᵥ affine A b x) ≤ s.epsilon
  · exact .inl (terminates_of_short hq harrives (by omega) hi.le hshort)
  have hg : affine A b x ≠ 0 := affine_ne_zero hepsilon hshort
  by_cases hflat : |affine A b x ⬝ᵥ unit (heading A b x H)| < s.epsilon
  · obtain ⟨hit, hland⟩ := lineSearch_quadratic hq hA hsearch hepsilon (by omega) hshort
      (hlearnt.heading_ne_zero hg)
    rw [if_pos hflat] at hland
    have hadvance := advance_standingAt hq.hasGradient (affine_strictlyMonotone hA b) hland
    rw [if_pos rfl] at hadvance
    rw [harrives.failed (by omega) (hq.hasGradient.complete s.step x) (hq.value_eq x)
      (by rwa [Vec.norm_ofFn]) hadvance]
    exact .inl (.stalled hi ⟨harrives, not_le.mp hshort, hflat, _, hland⟩)
  · refine .inr ⟨_, _, _, harrives.succ_of_steep hA hq hsearch hepsilon hlearnt (by omega) hshort
      hflat, hlearnt.next hA hg, ?_⟩
    rw [Submodule.finrank_sup_span_singleton (hlearnt.step_notMem hA hg), hdim]

include hA hq hmethod hsearch hepsilon in
/-- **All steps**: the descent ends, or it makes as many as there are dimensions, and learns one
with each. -/
theorem terminates_or_knows (x₀ : Fin n → ℝ) (hcap : max n 1 < s.maxIters) {i : ℕ} (hi : i ≤ n) :
    Terminates (objective.complete s.step) s A b x₀
        (descend (objective.complete s.step) s .silent () (List.ofFn x₀)).outcome ∨
      Knows (objective.complete s.step) s A b x₀ i := by
  induction i with
  | zero => exact .inr (.start hq hmethod)
  | succ i ih =>
    rcases ih (by omega) with hends | hknows
    · exact .inl hends
    · exact hknows.next hA hq hsearch hepsilon hi hcap

include hA hq hmethod hsearch hepsilon in
/-- **A quasi-Newton descent on a quadratic ends after no more steps than there are dimensions.** -/
theorem descend_terminates (hcap : max n 1 < s.maxIters) :
    Terminates (objective.complete s.step) s A b x₀
      (descend (objective.complete s.step) s .silent () (List.ofFn x₀)).outcome := by
  rcases terminates_or_knows hA hq hmethod hsearch hepsilon x₀ hcap le_rfl with
    hends | ⟨x, H, W, harrives, hlearnt, hdim⟩
  · exact hends
  · -- The matrix is known everywhere, and there is nothing left that the gradient could be.
    have hW : W = ⊤ := Submodule.eq_top_of_finrank_eq (by rw [hdim, Module.finrank_fin_fun])
    refine terminates_of_short hq harrives (by omega) le_rfl ?_
    rw [hlearnt.affine_eq_zero hW, zero_dotProduct, Real.sqrt_zero]
    exact hepsilon.le

end Descents

/-- **The quasi-Newton method with the Newton line search ends on quadratics**: it converges after
no more steps than there are dimensions, or it stalls at an iterate where the gradient is longer
than the tolerance but the slope along the unit direction is not as steep. -/
theorem run_quasiNewton_quadratic (hA : A.PosDef) {m : Minimiser ℝ}
    (hq : IsQuadratic objective A b) (hcheck : m.settings.check = .ok ())
    (hobjective : m.objective? = some objective) (hmethod : m.settings.method = .quasiNewton)
    (hsearch : m.settings.search = .newton) (hepsilon : 0 < m.settings.epsilon)
    (hcap : max n 1 < m.settings.maxIters) (x₀ : Fin n → ℝ) :
    Terminates (objective.complete m.settings.step) m.settings A b x₀
      (m.run .silent () (List.ofFn x₀)).outcome := by
  rw [run_of_oracle (oracle_of_check hcheck hobjective)]
  exact descend_terminates hA hq hmethod hsearch hepsilon hcap

/-! ### An elongated bowl -/

/-- A minimisation of `x² / 2 + 2 y²` by the quasi-Newton method. -/
noncomputable def learning : Minimiser ℝ where
  settings :=
    { maxIters := 3, epsilon := 1, step := 1, delta := 0, trivialStep := 1, search := .newton,
      method := .quasiNewton }
  objective? := some (quadratic elongated 0)

theorem learning_check : learning.settings.check = .ok () :=
  check_eq_ok_iff.mpr (by simp [learning])

/-- What the descent from the point with components four and one has learnt after its first step. -/
noncomputable def taught : Matrix (Fin 2) (Fin 2) ℝ :=
  !![Scalar.ratio 37 25, -Scalar.ratio 3 25; -Scalar.ratio 3 25, Scalar.ratio 7 25]

theorem heading_first : heading elongated 0 ![4, 1] 1 = ![-4, -4] := by
  rw [heading, affine_elongated, one_mulVec]
  simp

theorem heading_second : heading elongated 0 ![12 / 5, -3 / 5] taught = ![-96 / 25, 24 / 25] := by
  rw [heading, affine_elongated]
  ext i
  fin_cases i <;> norm_num [taught, mulVec, dotProduct, Fin.sum_univ_two]

theorem descentStep_first : descentStep elongated 0 ![4, 1] 1 = ![-8 / 5, -8 / 5] := by
  rw [descentStep, heading_first, affine_elongated, exactStep]
  ext i
  fin_cases i <;> norm_num [elongated, mulVec_diagonal, dotProduct, Fin.sum_univ_two]

theorem descentStep_second :
    descentStep elongated 0 ![12 / 5, -3 / 5] taught = ![-12 / 5, 3 / 5] := by
  rw [descentStep, heading_second, affine_elongated, exactStep]
  ext i
  fin_cases i <;> norm_num [elongated, mulVec_diagonal, dotProduct, Fin.sum_univ_two]

theorem bfgs_first :
    bfgs 1 ![-8 / 5, -8 / 5] (elongated *ᵥ ![-8 / 5, -8 / 5]) = taught := by
  ext i j
  fin_cases i <;> fin_cases j <;>
    norm_num [bfgs, deflation, taught, elongated, mulVec_diagonal, dotProduct, Fin.sum_univ_two,
      vecMulVec, mul_apply]

/-- The slope is not less steep than the tolerance at the first iterate. -/
theorem steep_first : ¬|affine elongated 0 ![4, 1] ⬝ᵥ unit (heading elongated 0 ![4, 1] 1)| <
    learning.settings.epsilon := by
  rw [affine_elongated, heading_first]
  exact one_le_slope (by simp) (by norm_num [dotProduct, Fin.sum_univ_two])

/-- Nor is it at the second one. -/
theorem steep_second : ¬|affine elongated 0 ![12 / 5, -3 / 5] ⬝ᵥ
    unit (heading elongated 0 ![12 / 5, -3 / 5] taught)| < learning.settings.epsilon := by
  rw [affine_elongated, heading_second]
  exact one_le_slope (by norm_num) (by norm_num [dotProduct, Fin.sum_univ_two])

/-- The descent comes to the minimum as its second iterate. -/
theorem arrives_learning : ∃ H, Arrives ((quadratic elongated 0).complete learning.settings.step)
    learning.settings (List.ofFn ![4, 1]) 2 (standingAt (affine elongated 0) 0 H) := by
  have hq := quadratic_isQuadratic elongated 0
  have hepsilon : 0 < learning.settings.epsilon := zero_lt_one
  have hlong := long_elongated (a := 4) (b := 1) hepsilon.le (by norm_num [learning])
  have hlong' := long_elongated (a := 12 / 5) (b := -3 / 5) hepsilon.le (by norm_num [learning])
  have hstart : Learnt elongated 0 ![4, 1] 1 ⊥ := .start _ _ _
  have hlearnt := hstart.next elongated_posDef (affine_ne_zero hepsilon hlong)
  have hfirst := (Arrives.start hq rfl).succ_of_steep elongated_posDef hq rfl hepsilon hstart
    (by decide) hlong steep_first
  have hpoint : ![(4 : ℝ), 1] + ![-8 / 5, -8 / 5] = ![12 / 5, -3 / 5] := by norm_num
  rw [descentStep_first, bfgs_first, hpoint] at hfirst hlearnt
  have hsecond := hfirst.succ_of_steep elongated_posDef hq rfl hepsilon hlearnt (by decide)
    hlong' steep_second
  have hminimum : ![(12 / 5 : ℝ), -3 / 5] + ![-12 / 5, 3 / 5] = 0 := by
    ext i
    fin_cases i <;> norm_num
  rw [descentStep_second, hminimum] at hsecond
  exact ⟨_, hsecond⟩

/-- From the point with components four and one it converges, at the minimum and in two steps. -/
theorem run_quasiNewton_quadratic_learning :
    ∃ sol, (learning.run .silent () (List.ofFn ![4, 1])).outcome = .ok sol ∧
      sol.ending = .converged ∧ sol.point = List.ofFn (0 : Fin 2 → ℝ) ∧ sol.iters = 2 ∧
      Terminates ((quadratic elongated 0).complete learning.settings.step) learning.settings
        elongated 0 ![4, 1] (.ok sol) := by
  have hq := quadratic_isQuadratic elongated 0
  have hrun := run_quasiNewton_quadratic elongated_posDef hq learning_check rfl rfl rfl
    (zero_lt_one (α := ℝ)) (by decide : max 2 1 < 3) ![4, 1]
  have hshort : Vec.norm (List.ofFn (affine elongated 0 0)) ≤ learning.settings.epsilon := by
    rw [Vec.norm_ofFn, affine, mulVec_zero, add_zero, dotProduct_zero, Real.sqrt_zero]
    exact zero_le_one
  obtain ⟨H, harrives⟩ := arrives_learning
  have hdescend := harrives.converged (by decide) (hq.hasGradient.complete _ 0) (hq.value_eq 0)
    hshort
  rw [run_of_oracle (oracle_of_check learning_check rfl), hdescend] at hrun ⊢
  exact ⟨_, rfl, rfl, rfl, rfl, hrun⟩

end Stepwise.Descent
