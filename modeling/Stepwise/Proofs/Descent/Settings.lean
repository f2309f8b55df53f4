import Mathlib.Tactic.SplitIfs
import Stepwise.Descent.Settings
import Stepwise.Proofs.Reals

/-!
# Settings that make sense

The check of settings looks at one number after the other. Settings pass it exactly if
there is at least one round, both tolerances are finite and not negative, the step is
finite and positive, and the fixed multiple is finite.
-/

namespace Stepwise.Descent

variable {R : Type} [Scalar R]

open Scalar

/-- The settings that pass the check. -/
theorem check_eq_ok_iff {s : Settings R} :
    s.check = .ok () ↔ s.maxIters ≠ 0 ∧ (isFinite s.epsilon = true ∧ ¬s.epsilon < ofNat 0) ∧
      (isFinite s.step = true ∧ ¬s.step ≤ ofNat 0) ∧
      (isFinite s.delta = true ∧ ¬s.delta < ofNat 0) ∧ isFinite s.trivialStep = true := by
  rw [Settings.check]
  split_ifs <;> grind

/-- The default settings pass the check over doubles. -/
example : (Settings.default : Settings Float).check = .ok () :=
  check_eq_ok_iff.mpr (by decide +kernel)

/-- In exact arithmetic the step of settings that pass the check is positive. -/
theorem Settings.step_pos {s : Settings ℝ} (hs : s.check = .ok ()) : 0 < s.step := by
  have hstep := (check_eq_ok_iff.mp hs).2.2.1.2
  rwa [Scalar.ofNat_real, Nat.cast_zero, not_le] at hstep

/-- In exact arithmetic the relative width of settings that pass the check is not negative. -/
theorem Settings.delta_nonneg {s : Settings ℝ} (hs : s.check = .ok ()) : 0 ≤ s.delta := by
  have hdelta := (check_eq_ok_iff.mp hs).2.2.2.1.2
  rwa [Scalar.ofNat_real, Nat.cast_zero, not_lt] at hdelta

end Stepwise.Descent
