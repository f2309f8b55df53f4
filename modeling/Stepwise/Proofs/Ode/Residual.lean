import Mathlib.LinearAlgebra.Matrix.DotProduct
import Mathlib.Tactic.NormNum
import Stepwise.Proofs.Descent.Unobserved
import Stepwise.Proofs.Differences
import Stepwise.Proofs.Ode.Course
import Stepwise.Proofs.Ode.Steps

/-!
# How well an implicit step solves its equation

An implicit multistep step accepts what its minimiser accepts: a point at which the square
of the residual is as good as stationary, as judged by central differences. That says
nothing about the residual itself. If the right-hand side is affine in the state, the
differences are exact, and what is as good as zero is the residual multiplied by the
transposed matrix of the equation (`Stepwise.Ode.implicit_step_stationary`). In general
the square of the residual can have a stationary point at which it does not vanish, and a
step that starts there stays there (`Stepwise.Ode.implicit_step_unsolved`).
-/

namespace Stepwise.Ode

open Matrix

/-! ### The residual -/

section Defect

variable {n : ℕ} (known : Fin n → ℝ) (implicit : ℝ)

/-- What a next state `u` leaves in the equation of a multistep scheme, where `slope` is the
right-hand side at the next time. -/
def defect (slope : (Fin n → ℝ) → Fin n → ℝ) (u : Fin n → ℝ) : Fin n → ℝ :=
  u - known - implicit • slope u

variable {f : Field ℝ} {next : ℝ}

/-- The residual is the square of the length of what is left. -/
theorem residual_ofFn {slope : (Fin n → ℝ) → Fin n → ℝ}
    (hf : ∀ u, f (List.ofFn u) next = .ok (List.ofFn (slope u))) (u : Fin n → ℝ) :
    Multistep.residual f (List.ofFn known) implicit next (List.ofFn u) =
      .ok (defect known implicit slope u ⬝ᵥ defect known implicit slope u) := by
  simp only [Multistep.residual, Vec.sub_ofFn, hf, ok_bind, Vec.scale_ofFn, Vec.normSquared_ofFn]
  rfl

/-- The residual is not negative, and it is zero if and only if the equation holds. -/
theorem exists_residual {slope : (Fin n → ℝ) → Fin n → ℝ}
    (hf : ∀ u, f (List.ofFn u) next = .ok (List.ofFn (slope u))) (u : Fin n → ℝ) :
    ∃ r, Multistep.residual f (List.ofFn known) implicit next (List.ofFn u) = .ok r ∧ 0 ≤ r ∧
      (r = 0 ↔ u = known + implicit • slope u) := by
  refine ⟨_, residual_ofFn known implicit hf u, Finset.sum_nonneg fun i _ => mul_self_nonneg _, ?_⟩
  rw [dotProduct_self_eq_zero, defect, sub_eq_zero, sub_eq_iff_eq_add']

/-- For an affine right-hand side the equation is linear in the next state. -/
theorem defect_affine (A : Matrix (Fin n) (Fin n) ℝ) (c u : Fin n → ℝ) :
    defect known implicit (fun v => A *ᵥ v + c) u =
      (1 - implicit • A) *ᵥ u - (known + implicit • c) := by
  rw [defect, sub_mulVec, one_mulVec, smul_mulVec, smul_add]
  abel

end Defect

/-! ### Steps that stay -/

/-- A minimiser that takes difference quotients over steps of a half. -/
noncomputable def halfStep : Descent.Minimiser ℝ :=
  .ofSettings { (Descent.Settings.default : Descent.Settings ℝ) with step := Scalar.ratio 1 2 }

theorem halfStep_check : halfStep.settings.check = .ok () := by
  rw [Descent.check_eq_ok_iff]
  norm_num [halfStep, Descent.Minimiser.ofSettings, Descent.Settings.default, Scalar.singleGap]

theorem halfStep_epsilon :
    0 ≤ halfStep.settings.epsilon ∧ halfStep.settings.epsilon < 1 := by
  norm_num [halfStep, Descent.Minimiser.ofSettings, Descent.Settings.default, Scalar.singleGap]

/-- A trajectory that begins at zero. -/
def origin : Trajectory ℝ := ⟨#[⟨List.ofFn (0 : Fin 1 → ℝ), 0⟩]⟩

theorem origin_last : origin.last? = some ⟨List.ofFn (0 : Fin 1 → ℝ), 0⟩ := rfl

theorem backwardEuler_isExplicit :
    (Multistep.ofPreset .backwardEuler : Multistep ℝ).isExplicit = false := by
  norm_num [Multistep.isExplicit, Multistep.leading, Multistep.ofPreset, Scalar.singleGap]

theorem backwardEuler_leading : (1 : ℝ) * (Multistep.ofPreset .backwardEuler).leading = 1 := by
  simp [Multistep.leading, Multistep.ofPreset]

/-- An implicit Euler step knows the last state. -/
theorem backwardEuler_known (f : Field ℝ) {h : Trajectory ℝ} {n : ℕ} {v : Fin n → ℝ} {t : ℝ}
    (hlast : h.last? = some ⟨List.ofFn v, t⟩) :
    (Multistep.ofPreset .backwardEuler).known f 1 n
      (h.recent (Multistep.ofPreset .backwardEuler : Multistep ℝ).depth) = .ok (List.ofFn v) := by
  have hrecent : h.recent (Multistep.ofPreset .backwardEuler : Multistep ℝ).depth =
      [⟨List.ofFn v, t⟩] := Trajectory.recent_one hlast
  rw [hrecent]
  simp [Multistep.known, Multistep.ofPreset, Multistep.addStates, Multistep.addSlopes]

/-- It minimises the residual from there. -/
theorem backwardEuler_step (f : Field ℝ) {h : Trajectory ℝ} {n : ℕ} {v : Fin n → ℝ} {t : ℝ}
    (hlast : h.last? = some ⟨List.ofFn v, t⟩) (m : Descent.Minimiser ℝ) :
    (Multistep.ofPreset .backwardEuler).step f h ⟨List.ofFn v, t⟩ 1 m =
      .implicit m (Multistep.residual f (List.ofFn v) 1 (t + 1)) (List.ofFn v) id := by
  simp only [Multistep.step, List.length_ofFn, backwardEuler_known f hlast, backwardEuler_leading,
    backwardEuler_isExplicit]
  rfl

/-- The first implicit Euler step from zero stays there if the square of the residual is an even
function. -/
theorem backwardEuler_stays {f : Field ℝ} {slope : (Fin 1 → ℝ) → Fin 1 → ℝ}
    (hf : ∀ u, f (List.ofFn u) 1 = .ok (List.ofFn (slope u)))
    (heven : ∀ u, defect 0 1 slope (-u) ⬝ᵥ defect 0 1 slope (-u) =
      defect 0 1 slope u ⬝ᵥ defect 0 1 slope u) :
    ((Multistep.ofPreset .backwardEuler).step f origin ⟨List.ofFn (0 : Fin 1 → ℝ), 0⟩ 1
      halfStep).outcome = .ok (List.ofFn (0 : Fin 1 → ℝ)) := by
  have hvalue := residual_ofFn 0 1 hf
  rw [backwardEuler_step f origin_last, zero_add]
  refine implicit_stationary halfStep_check (hvalue 0) (centralGradient_even hvalue heven _) ?_
  rw [Vec.norm_ofFn, dotProduct_zero, Real.sqrt_zero]
  exact halfStep_epsilon.1

/-- The right-hand side of the decay is linear. -/
theorem neg_ofFn_affine (v : Fin 1 → ℝ) :
    Except.ok (Vec.neg (List.ofFn v)) =
      (.ok (List.ofFn ((-1 : Matrix (Fin 1) (Fin 1) ℝ) *ᵥ v + 0)) : Except Fault (Vec ℝ)) := by
  rw [Vec.neg_ofFn, neg_mulVec, one_mulVec, add_zero]

/-! ### A step that goes somewhere -/

/-- A trajectory that begins at one. -/
def outset : Trajectory ℝ := ⟨#[⟨[1], 0⟩]⟩

theorem outset_last : outset.last? = some ⟨List.ofFn (![1] : Fin 1 → ℝ), 0⟩ := rfl

/-- A minimiser that goes a tenth of the gradient down at a time. -/
noncomputable def tenth : Descent.Minimiser ℝ :=
  .ofSettings
    { maxIters := 2, epsilon := 1, step := Scalar.ratio 1 2, delta := 0,
      trivialStep := Scalar.ratio 1 10, search := .trivial, method := .gradientDescent }

theorem tenth_check : tenth.settings.check = .ok () := by
  rw [Descent.check_eq_ok_iff]
  norm_num [tenth, Descent.Minimiser.ofSettings]

/-- The residual of the first implicit Euler step of the decay from one. -/
noncomputable def decayResidual : Objective ℝ where
  value := Multistep.residual (fun u _ => .ok u.neg) [1] 1 1

/-- What the minimiser asks. -/
noncomputable def decayOracle : Oracle ℝ := decayResidual.complete tenth.settings.step

/-- What is left of the equation is `2 u - 1`. -/
theorem decayResidual_ofFn (u : Fin 1 → ℝ) : decayResidual.value (List.ofFn u) =
    .ok (((2 : Matrix (Fin 1) (Fin 1) ℝ) *ᵥ u - 1) ⬝ᵥ
      ((2 : Matrix (Fin 1) (Fin 1) ℝ) *ᵥ u - 1)) := by
  have hvalue := @residual_ofFn 1 1 1 (fun u _ => .ok u.neg) 1 _ neg_ofFn_affine u
  have hmatrix : 1 - (1 : ℝ) • (-1 : Matrix (Fin 1) (Fin 1) ℝ) = 2 := by
    rw [one_smul, sub_neg_eq_add, one_add_one_eq_two]
  rwa [defect_affine, hmatrix, smul_zero, add_zero] at hvalue

theorem decayOracle_value (a : ℝ) : decayOracle.value [a] = .ok ((2 * a - 1) ^ 2) := by
  refine (decayResidual_ofFn ![a]).trans ?_
  simp [dotProduct, ofNat_mulVec, sq]

theorem decayOracle_gradient (a : ℝ) : decayOracle.gradient [a] = .ok [4 * (2 * a - 1)] := by
  refine (centralGradient_square _ _ decayResidual_ofFn
    (Descent.Settings.step_pos tenth_check).ne' ![a]).trans ?_
  simp [ofNat_mulVec, vecHead]
  ring

/-- A tenth of the gradient at one leads to three fifths. -/
theorem advance_outset : Descent.Standing.advance decayOracle tenth.settings ⟨[1], .steepest⟩ =
    .ok ⟨[3 / 5], .steepest⟩ := by
  refine Descent.advance_eq_ok.mpr
    ⟨_, ⟨[3 / 5], none⟩, _, decayOracle_gradient 1, ?_, rfl, rfl⟩
  norm_num [Descent.Standing.land, Descent.Guide.direction, Descent.lineSearch, tenth,
    Descent.Minimiser.ofSettings, Descent.Ray.point, Vec.add, Vec.neg, Vec.scale, Vec.combine]
  rfl

/-- The step from one goes to three fifths: the gradient is longer than the tolerance at one, but
not there. -/
theorem backwardEuler_moves :
    ((Multistep.ofPreset .backwardEuler).step (fun u _ => .ok u.neg) outset ⟨[1], 0⟩ 1
      tenth).outcome = .ok [3 / 5] := by
  have hstart : Descent.Arrives decayOracle tenth.settings [1] 0 ⟨[1], .steepest⟩ := .zero rfl
  have hlong : ¬Vec.norm [4 * (2 * 1 - 1)] ≤ tenth.settings.epsilon := by
    rw [Vec.norm_singleton]
    norm_num [tenth, Descent.Minimiser.ofSettings]
  have hshort : Vec.norm [4 * (2 * (3 / 5) - 1)] ≤ tenth.settings.epsilon := by
    rw [Vec.norm_singleton]
    norm_num [tenth, Descent.Minimiser.ofSettings, abs_le]
  have hnext := hstart.succ (decayOracle_gradient 1) (decayOracle_value 1) hlong advance_outset
  have hdescend := hnext.converged (by decide) (decayOracle_gradient _) (decayOracle_value _) hshort
  have hstep := backwardEuler_step (fun u _ => .ok u.neg) outset_last tenth
  rw [zero_add] at hstep
  exact (congrArg Step.outcome hstep).trans (implicit_of_descend tenth_check hdescend)

/-! ### Implicit steps -/

variable {n : ℕ} {s : Multistep ℝ} {f : Field ℝ} {h : Trajectory ℝ} {last : Sample ℝ} {k : ℝ}
  {m : Descent.Minimiser ℝ} {state : Vec ℝ}

/-- **What an accepted implicit step satisfies**: at the next state the square of the residual has
a gradient, by central differences with the step of the settings, that is as good as zero. If
the right-hand side is affine in the state, `u ↦ A u + c`, then this gradient is twice the
transposed matrix of the equation times what is left of the equation. -/
theorem implicit_step_stationary (himplicit : s.isExplicit = false)
    (hdimension : last.state.length = n) (hstep : (s.step f h last k m).outcome = .ok state) :
    ∃ known u : Fin n → ℝ,
      s.known f k last.state.length (h.recent s.depth) = .ok (List.ofFn known) ∧
      state = List.ofFn u ∧
      (∃ gradient, centralGradient (Multistep.residual f (List.ofFn known) (k * s.leading)
        (last.time + k)) m.settings.step state = .ok gradient ∧
          gradient.norm ≤ m.settings.epsilon) ∧
      ∀ A c, (∀ v, f (List.ofFn v) (last.time + k) = .ok (List.ofFn (A *ᵥ v + c))) →
        Vec.norm (List.ofFn ((2 : ℝ) • ((1 - (k * s.leading) • A)ᵀ *ᵥ
          defect known (k * s.leading) (fun v => A *ᵥ v + c) u))) ≤ m.settings.epsilon := by
  have hscheme : ((Scheme.multistep s).step f h last k m).outcome = .ok state := hstep
  obtain ⟨u, rfl⟩ := Vec.exists_eq_ofFn ((length_of_step hscheme).trans hdimension)
  simp only [Multistep.step, himplicit] at hstep
  split at hstep
  · cases hstep
  · rename_i known hknown
    obtain ⟨known, rfl⟩ := Vec.exists_eq_ofFn ((length_of_known hknown).trans hdimension)
    obtain ⟨hcheck, sol, events, hpoint, hfound⟩ := implicit_eq_ok hstep
    obtain ⟨gradient, hgradient, hnorm⟩ := hfound.gradientNorm_eq
    -- Nobody objects, so the minimisation has ended because it converged.
    have hle : gradient.norm ≤ m.settings.epsilon :=
      hnorm.trans_le (hfound.gradientNorm_le Observer.silent_silent)
    rw [← show List.ofFn u = sol.point from hpoint] at hgradient
    refine ⟨known, u, hknown, rfl, ⟨gradient, hgradient, hle⟩, fun A c haffine => ?_⟩
    have hsquare := residual_ofFn known (k * s.leading) haffine
    simp only [defect_affine] at hsquare ⊢
    have hexact := centralGradient_square _ _ hsquare (Descent.Settings.step_pos hcheck).ne' u
    cases hexact.symm.trans hgradient
    exact hle

/-- The implicit Euler step of the decay from one is such a step: it goes to three fifths, and
there the gradient, four fifths, is no longer than the tolerance. -/
theorem implicit_step_stationary_decay :
    ((Multistep.ofPreset .backwardEuler).step (fun u _ => .ok u.neg) outset ⟨[1], 0⟩ 1
      tenth).outcome = .ok (List.ofFn ![(3 / 5 : ℝ)]) ∧
    Vec.norm (List.ofFn ((2 : ℝ) • ((1 - ((1 : ℝ) * (Multistep.ofPreset .backwardEuler).leading) •
      (-1 : Matrix (Fin 1) (Fin 1) ℝ))ᵀ *ᵥ defect ![1]
        (1 * (Multistep.ofPreset .backwardEuler).leading)
        (fun v => (-1 : Matrix (Fin 1) (Fin 1) ℝ) *ᵥ v + 0) ![3 / 5]))) ≤
      tenth.settings.epsilon := by
  obtain ⟨known, u, hknown, hu, -, hnorm⟩ :=
    implicit_step_stationary (n := 1) backwardEuler_isExplicit rfl backwardEuler_moves
  have hone : ![1] = known :=
    List.ofFn_injective (Except.ok.inj ((backwardEuler_known _ outset_last).symm.trans hknown))
  have hpoint : ![3 / 5] = u := List.ofFn_injective hu
  rw [← hone, ← hpoint] at hnorm
  exact ⟨backwardEuler_moves, hnorm (-1) 0 neg_ofFn_affine⟩

/-- The right-hand side of `u' = 1 + u - u²`. -/
def logistic : Field ℝ := fun u _ => .ok (u.map fun a => 1 + a - a ^ 2)

/-- **An accepted implicit step need not solve its equation.** From zero the equation of an
implicit Euler step of one is `u² = 1`, and the step ends at zero. -/
theorem implicit_step_unsolved :
    Multistep.make [0, 1] [1] = .ok (Multistep.ofPreset .backwardEuler : Multistep ℝ) ∧
      (Multistep.ofPreset .backwardEuler : Multistep ℝ).isExplicit = false ∧
      origin.requireSpacing 1 = .ok () ∧
      origin.requireDepth (Multistep.ofPreset .backwardEuler : Multistep ℝ).depth = .ok () ∧
      halfStep.settings.check = .ok () ∧
      ∃ known state value,
        (Multistep.ofPreset .backwardEuler).known logistic 1 1
          (origin.recent (Multistep.ofPreset .backwardEuler : Multistep ℝ).depth) = .ok known ∧
        ((Multistep.ofPreset .backwardEuler).step logistic origin
          ⟨List.ofFn (0 : Fin 1 → ℝ), 0⟩ 1 halfStep).outcome = .ok state ∧
        Multistep.residual logistic known (1 * (Multistep.ofPreset .backwardEuler).leading) (0 + 1)
          state = .ok value ∧
        ¬value ≤ halfStep.settings.epsilon := by
  have hlogistic (u : Fin 1 → ℝ) : logistic (List.ofFn u) 1 =
      .ok (List.ofFn fun i => 1 + u i - u i ^ 2) := by
    rw [logistic, Vec.map_eq_ofFn]
  have hdefect (u : Fin 1 → ℝ) :
      defect 0 1 (fun u i => 1 + u i - u i ^ 2) u = fun i => u i ^ 2 - 1 := by
    funext i
    simp only [defect, Pi.sub_apply, Pi.zero_apply, one_smul]
    ring
  refine ⟨?_, backwardEuler_isExplicit, ?_, ?_, halfStep_check, _, _, 1,
    backwardEuler_known _ origin_last, backwardEuler_stays hlogistic fun u => ?_, ?_, ?_⟩
  · simp [Multistep.make, Multistep.ofPreset]
  · simp [Trajectory.requireSpacing, Trajectory.requireGaps, origin]
  · simp [Trajectory.requireDepth, Trajectory.size, Multistep.depth, Multistep.ofPreset, origin]
  · simp only [hdefect, Pi.neg_apply, even_two.neg_pow]
  · rw [backwardEuler_leading, zero_add, residual_ofFn 0 1 hlogistic, hdefect]
    simp [dotProduct]
  · exact not_le.mpr halfStep_epsilon.2

end Stepwise.Ode
