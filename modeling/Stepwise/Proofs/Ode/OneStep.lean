import Mathlib.Tactic.NormNum
import Stepwise.Proofs.Ode.Course
import Stepwise.Proofs.Ode.Residual
import Stepwise.Proofs.Ode.Stages

/-!
# One-step methods, written twice

A one-step method with the slopes at both ends of the step can be written as a multistep scheme
with one sample behind it, and as a Runge–Kutta scheme with two stages, one at each end. The
multistep scheme looks for the next state alone and counts its coefficients back from there;
the Runge–Kutta scheme looks for the stages as well, and counts from the last sample on. In
exact arithmetic the next states are the same (`Stepwise.Ode.one_step_agree`): those at which
the residuals vanish if the slope at the end of the step takes part, and otherwise the one
state that both compute.
-/

namespace Stepwise.Ode

open Matrix

/-! ### The two schemes -/

/-- The multistep scheme with the slopes at both ends of the step; the first coefficient is not
used. -/
def oneStep (a₀ b₀ b₁ : ℝ) : Multistep ℝ := ⟨[a₀, 1], [b₀, b₁], by simp, by simp⟩

/-- The tableau with a stage at either end of the step. -/
def oneStepTableau (b₀ b₁ : ℝ) : Tableau ℝ where
  a := ⟨2, [[0, 0], [b₁, b₀]], by simp⟩
  b := [b₁, b₀]
  c := [0, 1]
  b_ne_nil := by simp
  height_a := rfl
  width_a := rfl
  length_c := rfl

theorem make_oneStep (a₀ b₀ b₁ : ℝ) :
    Multistep.make [a₀, 1] [b₀, b₁] = .ok (oneStep a₀ b₀ b₁) := by
  simp [Multistep.make, oneStep]

theorem make_oneStepTableau (b₀ b₁ : ℝ) :
    Tableau.make ⟨2, [[0, 0], [b₁, b₀]], by simp⟩ [b₁, b₀] [0, 1] =
      .ok (oneStepTableau b₀ b₁) := by
  simp [Tableau.make, oneStepTableau, Mat.height, Vec.isFinite]

section Schemes

variable {d : ℕ} {slope : (Fin d → ℝ) → ℝ → Fin d → ℝ} {f : Field ℝ} {v : Fin d → ℝ}
  {t k a₀ b₀ b₁ : ℝ} {h : Trajectory ℝ}

/-- The last sample contributes its state and its slope. -/
theorem oneStep_known (hf : ∀ u t, f (List.ofFn u) t = .ok (List.ofFn (slope u t)))
    (hlast : h.last? = some ⟨List.ofFn v, t⟩) :
    (oneStep a₀ b₀ b₁).known f k d (h.recent (oneStep a₀ b₀ b₁).depth) =
      .ok (List.ofFn (v + (k * b₁) • slope v t)) := by
  have hrecent : h.recent (oneStep a₀ b₀ b₁).depth = [⟨List.ofFn v, t⟩] :=
    Trajectory.recent_one hlast
  rw [hrecent]
  simp [oneStep, Multistep.known, Multistep.addStates, Multistep.addSlopes, hf]

/-- The first stage is taken at the last sample. -/
theorem stageSlope_first (K₁ K₂ : Fin d → ℝ) :
    stageSlope (oneStepTableau b₀ b₁) slope v t k ![K₁, K₂] (0 : Fin 2) = slope v t := by
  change slope (v + k • ∑ j : Fin 2, (oneStepTableau b₀ b₁).a.entry 0 j • ![K₁, K₂] j)
    (t + 0 * k) = _
  simp [Fin.sum_univ_two, Mat.entry, oneStepTableau]

/-- The second one is taken at the end of the step. -/
theorem stageSlope_second (K₁ K₂ : Fin d → ℝ) :
    stageSlope (oneStepTableau b₀ b₁) slope v t k ![K₁, K₂] (1 : Fin 2) =
      slope (v + k • (b₁ • K₁ + b₀ • K₂)) (t + k) := by
  change slope (v + k • ∑ j : Fin 2, (oneStepTableau b₀ b₁).a.entry 1 j • ![K₁, K₂] j)
    (t + 1 * k) = _
  simp [Fin.sum_univ_two, Mat.entry, oneStepTableau]

theorem nextState_oneStepTableau (K₁ K₂ : Fin d → ℝ) :
    nextState (oneStepTableau b₀ b₁) v k ![K₁, K₂] = v + k • (b₁ • K₁ + b₀ • K₂) := by
  change v + k • ∑ i : Fin 2, [b₁, b₀].getD i 0 • ![K₁, K₂] i = _
  simp [Fin.sum_univ_two]

/-- The equations of the tableau, written out. -/
theorem solves_oneStepTableau {K₁ K₂ y : Fin d → ℝ} :
    Solves (oneStepTableau b₀ b₁) slope v t k ![K₁, K₂] y ↔
      K₁ = slope v t ∧ K₂ = slope y (t + k) ∧ y = v + k • (b₁ • K₁ + b₀ • K₂) := by
  constructor
  · rintro ⟨hstage, hnext⟩
    rw [nextState_oneStepTableau] at hnext
    have hfirst := hstage (0 : Fin 2)
    have hsecond := hstage (1 : Fin 2)
    rw [stageSlope_first] at hfirst
    rw [stageSlope_second, ← hnext] at hsecond
    exact ⟨hfirst, hsecond, hnext⟩
  · rintro ⟨hfirst, hsecond, hnext⟩
    refine ⟨Fin.forall_fin_two.mpr ⟨?_, ?_⟩, ?_⟩
    · rw [stageSlope_first]
      exact hfirst
    · rw [stageSlope_second, ← hnext]
      exact hsecond
    · rw [nextState_oneStepTableau]
      exact hnext

/-- The equation that the two schemes share. -/
theorem residual_oneStep_eq_zero_iff
    (hf : ∀ u t, f (List.ofFn u) t = .ok (List.ofFn (slope u t))) (y : Fin d → ℝ) :
    Multistep.residual f (List.ofFn (v + (k * b₁) • slope v t)) (k * b₀) (t + k) (List.ofFn y) =
        .ok 0 ↔ y = v + (k * b₁) • slope v t + (k * b₀) • slope y (t + k) := by
  obtain ⟨r, hr, -, hzero⟩ :=
    exists_residual (v + (k * b₁) • slope v t) (k * b₀) (fun u => hf u (t + k)) y
  rw [hr, Except.ok.injEq, hzero]

/-- It is what is left of the equations of the tableau when the stages are put in. -/
theorem residual_oneStepTableau_eq_zero_iff
    (hf : ∀ u t, f (List.ofFn u) t = .ok (List.ofFn (slope u t))) (y : Fin d → ℝ) :
    (∃ K₁ K₂, (oneStepTableau b₀ b₁).residual f ⟨List.ofFn v, t⟩ k (stack [K₁, K₂] y) = .ok 0) ↔
      y = v + (k * b₁) • slope v t + (k * b₀) • slope y (t + k) := by
  have hiff (K₁ K₂ : Fin d → ℝ) :
      (oneStepTableau b₀ b₁).residual f ⟨List.ofFn v, t⟩ k (stack [K₁, K₂] y) = .ok 0 ↔
        Solves (oneStepTableau b₀ b₁) slope v t k ![K₁, K₂] y := by
    obtain ⟨r, hr, -, hzero⟩ := residual_stack_eq_zero_iff (s := oneStepTableau b₀ b₁) hf
      (v := v) (t := t) (k := k) ![K₁, K₂] y
    rw [← hzero]
    exact ⟨fun h => Except.ok.inj (hr.symm.trans h), fun h => hr.trans (congrArg _ h)⟩
  simp only [hiff, solves_oneStepTableau]
  constructor
  · rintro ⟨K₁, K₂, rfl, rfl, hnext⟩
    rwa [smul_add, smul_smul, smul_smul, ← add_assoc] at hnext
  · intro hy
    refine ⟨_, _, rfl, rfl, ?_⟩
    rwa [smul_add, smul_smul, smul_smul, ← add_assoc]

/-- The step of the multistep scheme minimises the residual of its equation. -/
theorem oneStep_implicit (hf : ∀ u t, f (List.ofFn u) t = .ok (List.ofFn (slope u t)))
    (hlast : h.last? = some ⟨List.ofFn v, t⟩) (m : Descent.Minimiser ℝ)
    (hb₀ : Scalar.singleGap < |b₀|) :
    (oneStep a₀ b₀ b₁).step f h ⟨List.ofFn v, t⟩ k m =
      .implicit m (Multistep.residual f (List.ofFn (v + (k * b₁) • slope v t)) (k * b₀) (t + k))
        (List.ofFn v) id := by
  have himplicit : (oneStep a₀ b₀ b₁).isExplicit = false := decide_eq_false (not_le.mpr hb₀)
  simp only [Multistep.step, List.length_ofFn, oneStep_known hf hlast, himplicit]
  rfl

theorem oneStep_isExplicit : (oneStep a₀ 0 b₁).isExplicit = true := by
  refine decide_eq_true ?_
  norm_num [Multistep.leading, oneStep, Scalar.singleGap]

/-- Without the slope at the end of the step the multistep scheme computes the next state. -/
theorem oneStep_explicit (hf : ∀ u t, f (List.ofFn u) t = .ok (List.ofFn (slope u t)))
    (hlast : h.last? = some ⟨List.ofFn v, t⟩) (m : Descent.Minimiser ℝ) :
    ((oneStep a₀ 0 b₁).step f h ⟨List.ofFn v, t⟩ k m).outcome =
      .ok (List.ofFn (v + (k * b₁) • slope v t)) := by
  simp only [Multistep.step, List.length_ofFn, oneStep_known hf hlast, oneStep_isExplicit]
  rfl

theorem oneStepTableau_isExplicit : (oneStepTableau 0 b₁).isExplicit = true := by
  simp [Tableau.isExplicit, oneStepTableau, Tableau.zeroFrom]

/-- So does the tableau. -/
theorem oneStepTableau_explicit (hf : ∀ u t, f (List.ofFn u) t = .ok (List.ofFn (slope u t)))
    (m : Descent.Minimiser ℝ) :
    ((oneStepTableau 0 b₁).step f ⟨List.ofFn v, t⟩ k m).outcome =
      .ok (List.ofFn (v + (k * b₁) • slope v t)) := by
  have hsum : combination (oneStepTableau 0 b₁).b
      (stagesUpTo (oneStepTableau 0 b₁) slope v t k (oneStepTableau 0 b₁).stages) =
        b₁ • slope v t := by
    simp [stagesUpTo, oneStepTableau, Tableau.stages, combination_cons]
  simp only [Tableau.step, oneStepTableau_isExplicit, if_true, Step.explicit, explicitNext_eq hf,
    hsum, smul_smul]
  rfl

end Schemes

/-! ### The same step -/

/-- **The two schemes make the same step**, and both can be built. If the slope at the end of the
step takes part, a next state is a zero of the residual that the multistep scheme minimises if and
only if with some stages it is a zero of the residual of the tableau. If it does not take part, both
schemes compute the next state, and they compute the same. -/
theorem one_step_agree {d : ℕ} {slope : (Fin d → ℝ) → ℝ → Fin d → ℝ} {f : Field ℝ}
    (hf : ∀ u t, f (List.ofFn u) t = .ok (List.ofFn (slope u t))) {h : Trajectory ℝ}
    {v : Fin d → ℝ} {t : ℝ} (hlast : h.last? = some ⟨List.ofFn v, t⟩) (a₀ b₀ b₁ k : ℝ)
    (m : Descent.Minimiser ℝ) :
    Multistep.make [a₀, 1] [b₀, b₁] = .ok (oneStep a₀ b₀ b₁) ∧
    Tableau.make ⟨2, [[0, 0], [b₁, b₀]], by simp⟩ [b₁, b₀] [0, 1] = .ok (oneStepTableau b₀ b₁) ∧
    (Scalar.singleGap < |b₀| →
      (oneStep a₀ b₀ b₁).step f h ⟨List.ofFn v, t⟩ k m =
        .implicit m (Multistep.residual f (List.ofFn (v + (k * b₁) • slope v t)) (k * b₀) (t + k))
          (List.ofFn v) id ∧
      ∀ y : Fin d → ℝ,
        Multistep.residual f (List.ofFn (v + (k * b₁) • slope v t)) (k * b₀) (t + k)
            (List.ofFn y) = .ok 0 ↔
          ∃ K₁ K₂, (oneStepTableau b₀ b₁).residual f ⟨List.ofFn v, t⟩ k (stack [K₁, K₂] y) =
            .ok 0) ∧
    (b₀ = 0 → (oneStep a₀ b₀ b₁).isExplicit = true ∧ (oneStepTableau b₀ b₁).isExplicit = true ∧
      ((oneStep a₀ b₀ b₁).step f h ⟨List.ofFn v, t⟩ k m).outcome =
        .ok (List.ofFn (v + (k * b₁) • slope v t)) ∧
      ((oneStepTableau b₀ b₁).step f ⟨List.ofFn v, t⟩ k m).outcome =
        .ok (List.ofFn (v + (k * b₁) • slope v t))) := by
  refine ⟨make_oneStep a₀ b₀ b₁, make_oneStepTableau b₀ b₁, fun hb₀ => ?_, ?_⟩
  · refine ⟨oneStep_implicit hf hlast m hb₀, fun y => ?_⟩
    exact (residual_oneStep_eq_zero_iff hf y).trans (residual_oneStepTableau_eq_zero_iff hf y).symm
  · rintro rfl
    exact ⟨oneStep_isExplicit, oneStepTableau_isExplicit, oneStep_explicit hf hlast m,
      oneStepTableau_explicit hf m⟩

/-- The trapezoidal rule and forward Euler steps are such methods. For the decay from one the
equation of the trapezoidal rule holds at a third, where the tableau finds its stages, and an
Euler step of one ends at zero. -/
theorem one_step_agree_decay :
    (oneStep 0 (1 / 2) (1 / 2)).step (fun u _ => .ok u.neg) outset ⟨[1], 0⟩ 1 halfStep =
      .implicit halfStep (Multistep.residual (fun u _ => .ok u.neg) [1 / 2] (1 / 2) 1) [1] id ∧
    Multistep.residual (fun u _ => .ok u.neg) [1 / 2] (1 / 2) 1 [(1 / 3 : ℝ)] = .ok 0 ∧
    (∃ K₁ K₂, (oneStepTableau (1 / 2) (1 / 2)).residual (fun u _ => .ok u.neg) ⟨[1], 0⟩ 1
      (stack [K₁, K₂] ![1 / 3]) = .ok 0) ∧
    ((oneStep 0 0 1).step (fun u _ => .ok u.neg) outset ⟨[1], 0⟩ 1 halfStep).outcome = .ok [0] ∧
    ((oneStepTableau 0 1).step (fun u _ => .ok u.neg) ⟨[1], 0⟩ 1 halfStep).outcome = .ok [0] := by
  have hslope (u : Fin 1 → ℝ) (_ : ℝ) : Except.ok (Vec.neg (List.ofFn u)) =
      (.ok (List.ofFn (-u)) : Except Fault (Vec ℝ)) := by
    rw [Vec.neg_ofFn]
  have hhalf : (Scalar.singleGap : ℝ) < |1 / 2| := by norm_num [Scalar.singleGap]
  have hzero : Multistep.residual (fun u _ => .ok u.neg) [1 / 2] (1 / 2) 1 [(1 / 3 : ℝ)] =
      .ok 0 := by
    norm_num [Multistep.residual, Vec.sub, Vec.scale, Vec.neg, Vec.combine, Vec.normSquared,
      Vec.total_real]
  obtain ⟨-, -, himplicit, -⟩ := one_step_agree (f := fun u _ => .ok u.neg) hslope outset_last
    0 (1 / 2) (1 / 2) 1 halfStep
  obtain ⟨-, -, -, hexplicit⟩ := one_step_agree (f := fun u _ => .ok u.neg) hslope outset_last
    0 0 1 1 halfStep
  obtain ⟨hstep, hagree⟩ := himplicit hhalf
  obtain ⟨-, -, hmultistep, htableau⟩ := hexplicit rfl
  have hknown : List.ofFn (![(1 : ℝ)] + ((1 : ℝ) * (1 / 2)) • -![1]) = [1 / 2] := by norm_num
  have hnext : List.ofFn (![(1 : ℝ)] + ((1 : ℝ) * 1) • -![1]) = [0] := by simp
  rw [hknown, one_mul, zero_add] at hstep hagree
  rw [hnext] at hmultistep htableau
  exact ⟨hstep, hzero, (hagree ![1 / 3]).mp hzero, hmultistep, htableau⟩

end Stepwise.Ode
