import Stepwise.Proofs.Differences
import Stepwise.Proofs.Descent.Account
import Stepwise.Proofs.Doubles.Lengths

/-!
# Planes

The gradient of a plane is the same everywhere, so a descent on a sloped plane should never count
as converged. Over doubles it does when the objective is known by its values alone: the points
one step to either side are rounded, and so are the values there, and far from the origin nothing
is left of the rise between them. At `100000` any step below `2⁻³⁷` is lost in the coordinate
itself, the difference is zero, and the descent has converged where it started
(`Stepwise.Descent.plane_converged_far`).

How far from the origin this begins is a matter of the two samples only
(`Stepwise.Descent.twoSided_error`). What the descent makes of them afterwards loses nothing: a
quotient that is as large as a double is not rounded below it, and the length of the gradient is no
less than a component. So where a descent has converged on a plane, every slope is explained by the
error of the samples (`Stepwise.Descent.run_plane`).
-/

namespace Stepwise.Descent

open Double

/-- A plane through the origin, known by its values. -/
def plane {R : Type} [Scalar R] (c : Vec R) : Objective R where
  value x := Vec.dot c x

/-! ### Samples -/

/-- How large the terms of an inner product are altogether. -/
noncomputable def magnitude (c x : Vec Float) : ℝ :=
  (List.zipWith (fun a t => |toReal a * toReal t|) c x).sum

/-- The size of what the value of a plane near a point is made of: the terms at the point, the
rise to one side, and the least normal double for each term. -/
noncomputable def sampleSize (c x : Vec Float) (slope h : ℝ) : ℝ :=
  magnitude c x + |slope| * h + c.length * leastNormal

section Samples

variable {n : ℕ} {c x : Fin n → Float} {i : Fin n} {h : ℝ}

theorem sampleSize_ofFn (slope : ℝ) :
    sampleSize (List.ofFn c) (List.ofFn x) slope h =
      ∑ j, |toReal (c j) * toReal (x j)| + |slope| * h + n * leastNormal := by
  rw [sampleSize, magnitude, Vec.zipWith_ofFn, List.sum_ofFn, List.length_ofFn]

/-- The rise to one side is no larger than the samples. -/
theorem le_sampleSize (slope : ℝ) :
    |slope| * h ≤ sampleSize (List.ofFn c) (List.ofFn x) slope h := by
  have hsum : 0 ≤ ∑ j, |toReal (c j) * toReal (x j)| :=
    Finset.sum_nonneg fun j _ => abs_nonneg _
  have hleast : 0 ≤ n * leastNormal := mul_nonneg (Nat.cast_nonneg n) leastNormal_pos.le
  rw [sampleSize_ofFn]
  linarith

/-- **One sample of a plane**, at a point to one side, is wrong by little of its size. -/
theorem sample_error {p y : Float} {r : ℝ} (hr : |r| ≤ h)
    (hp : |toReal p - (toReal (x i) + r)| ≤ roundoff * |toReal (x i) + r|)
    (hvalue : (plane (List.ofFn c)).value (Vec.replace (List.ofFn x) i p) = .ok y)
    (hy : y.isFinite) :
    |toReal y - (∑ j, toReal (c j) * toReal (x j) + toReal (c i) * r)| ≤
      ((1 + roundoff) ^ (n + 7) - 1) *
        sampleSize (List.ofFn c) (List.ofFn x) (toReal (c i)) h := by
  rw [replace_ofFn] at hvalue
  have hside : |toReal (x i) + r| ≤ |toReal (x i)| + h :=
    (abs_add_le _ _).trans (add_le_add le_rfl hr)
  have herror := dot_error (ξ := fun j => toReal (x j) + if j = i then r else 0)
    (m := fun j => |toReal (x j)| + if j = i then h else 0) hvalue hy ?_ ?_
  · have hexact : ∑ j, toReal (c j) * (toReal (x j) + if j = i then r else 0) =
        ∑ j, toReal (c j) * toReal (x j) + toReal (c i) * r := by
      simp [mul_add, Finset.sum_add_distrib]
    have hsize : ∑ j, (|toReal (c j)| * (|toReal (x j)| + if j = i then h else 0) + leastNormal) =
        sampleSize (List.ofFn c) (List.ofFn x) (toReal (c i)) h := by
      rw [sampleSize_ofFn]
      simp [mul_add, abs_mul, Finset.sum_add_distrib]
    rwa [hexact, hsize] at herror
  · intro j
    rcases eq_or_ne j i with rfl | hne
    · simpa using hside
    · simp [hne]
  · intro j
    rcases eq_or_ne j i with rfl | hne
    · simpa using hp.trans (mul_le_mul_of_nonneg_left hside roundoff_pos.le)
    · simpa [hne] using mul_nonneg roundoff_pos.le (abs_nonneg (toReal (x j)))

/-- A finite sample was taken at a finite coordinate. -/
theorem isFinite_of_sample {p y : Float}
    (hvalue : (plane (List.ofFn c)).value (Vec.replace (List.ofFn x) i p) = .ok y)
    (hy : y.isFinite) : p.isFinite := by
  rw [replace_ofFn] at hvalue
  have hproduct := (summed_of_dot hvalue hy).2 i
  rw [Function.update_self] at hproduct
  exact (isFinite_of_mul hproduct).2

/-- **The difference of two samples of a plane** is wrong by little of their size. -/
theorem twoSided_error {step forward backward : Float} (hstep : 0 ≤ toReal step)
    (hsides : twoSided (plane (List.ofFn c)).value (List.ofFn x) step i (x i) =
      .ok (forward, backward)) (hfinite : (forward - backward).isFinite) :
    |toReal (forward - backward) - 2 * (toReal (c i) * toReal step)| ≤
      2 * (((1 + roundoff) ^ (n + 8) - 1) *
        sampleSize (List.ofFn c) (List.ofFn x) (toReal (c i)) (toReal step)) := by
  obtain ⟨hforward, hbackward⟩ := isFinite_of_sub hfinite
  obtain ⟨f, hf, h⟩ := bind_eq_ok.mp hsides
  obtain ⟨b, hb, h⟩ := bind_eq_ok.mp h
  obtain ⟨rfl, rfl⟩ := Prod.mk.inj (pure_eq_ok_iff.mp h)
  have hahead := sample_error (r := toReal step) (abs_of_nonneg hstep).le
    (add_error (isFinite_of_sample hf hforward)) hf hforward
  have hbehind := sample_error (r := -toReal step) (by rw [abs_neg, abs_of_nonneg hstep])
    (sub_error (isFinite_of_sample hb hbackward)) hb hbackward
  have hrise := le_sampleSize (c := c) (x := x) (h := toReal step) (toReal (c i))
  rw [← abs_of_nonneg hstep, ← abs_mul, abs_of_nonneg hstep] at hrise
  have hround := sub_error hfinite
  rw [mul_neg] at hbehind
  generalize sampleSize (List.ofFn c) (List.ofFn x) (toReal (c i)) (toReal step) = size at *
  generalize ∑ j, toReal (c j) * toReal (x j) = s at *
  generalize toReal (c i) * toReal step = a at *
  -- What both samples have in common cancels, and the two rises are added.
  have hup : toReal f - (s + a) = (toReal f - s) - a := by ring
  have hdown : toReal b - (s + -a) = -((s - toReal b) - a) := by ring
  have hrises : toReal f - toReal b = (toReal f - s) + (s - toReal b) := by ring
  rw [hup] at hahead
  rw [hdown, abs_neg] at hbehind
  rw [hrises] at hround
  have herror := error_step hahead hbehind hrise hrise hround
  rw [pow_succ, two_mul]
  linarith

end Samples

/-! ### The gradient and its length -/

/-- **A component of a short gradient is short**, and finite. -/
theorem component_lt {gradient : Vec Float} {component epsilon bound : Float}
    (hmem : component ∈ gradient) (hshort : gradient.norm ≤ epsilon) (hbound : epsilon < bound)
    (hnormal : leastRoot ≤ toReal bound) :
    component.isFinite ∧ |units component| < units bound := by
  obtain ⟨hnan, -, hepsilon⟩ := le_iff.mp hshort
  obtain ⟨-, -, habove⟩ := lt_iff.mp hbound
  have hless : |units component| < units bound := by
    by_contra! hlong
    have hlong' : (units bound : ℝ) ≤ |(units component : ℝ)| := by exact_mod_cast hlong
    rw [← toReal_mul_scale, ← abs_toReal_mul_scale] at hlong'
    have hnorm := le_norm hmem (hnormal.trans (le_of_mul_le_mul_right hlong' scale_pos)) hnan
    omega
  refine ⟨?_, hless⟩
  by_contra hinfinite
  have hlimit := (le_abs_self _).trans (representable_units bound).abs_le_limit
  rcases units_infinite hinfinite (fun h => hnan (isNaN_norm hmem h)) with h | h
  · rw [h, Nat.abs_cast] at hless
    omega
  · rw [h, abs_neg, Nat.abs_cast] at hless
    omega

/-- **What gives a short quotient is small**: a quotient as large as a double is not rounded below
it. -/
theorem rise_lt {rise width bound : Float} (hfinite : (rise / width).isFinite)
    (hshort : |units (rise / width)| < units bound) (hwidth : width.isFinite)
    (hpos : 0 < toReal width) : |toReal rise| < toReal width * toReal bound := by
  by_contra! hlong
  have hquotient : toReal bound * 2 ^ 1074 ≤ |toReal rise / toReal width * 2 ^ 1074| := by
    rw [abs_mul, abs_of_pos scale_pos, abs_div, abs_of_pos hpos]
    refine mul_le_mul_of_nonneg_right ?_ scale_pos.le
    rw [le_div_iff₀ hpos, mul_comm]
    exact hlong
  rw [toReal_mul_scale] at hquotient
  have hnearest := div_nearest (isFinite_of_div hfinite) hwidth (toReal_pos_iff.mp hpos).ne'
  exact (hnearest.1.le_abs (representable_units bound) hquotient).not_gt hshort

/-- **Where the gradient of a plane is short, every slope is explained by the error of the
samples.** -/
theorem slope_lt {n : ℕ} {c x : Fin n → Float} {step epsilon bound : Float} {gradient : Vec Float}
    (hgradient : centralGradient (plane (List.ofFn c)).value step (List.ofFn x) = .ok gradient)
    (hpos : 0 < toReal step) (hdouble : (Scalar.ofNat 2 * step).isFinite)
    (hshort : gradient.norm ≤ epsilon) (hbound : epsilon < bound)
    (hnormal : leastRoot ≤ toReal bound) (i : Fin n) :
    (|toReal (c i)| - toReal bound) * toReal step <
      ((1 + roundoff) ^ (n + 8) - 1) *
        sampleSize (List.ofFn c) (List.ofFn x) (toReal (c i)) (toReal step) := by
  have horigin : (List.ofFn x)[(i : ℕ)]? = some (x i) := by simp
  obtain ⟨forward, backward, hsides, hcomponent⟩ := getElem?_of_centralGradient hgradient horigin
  obtain ⟨hfinite, hless⟩ :=
    component_lt (List.mem_of_getElem? hcomponent) hshort hbound hnormal
  have hrise := rise_lt hfinite hless hdouble (by rw [toReal_double hdouble]; linarith)
  rw [toReal_double hdouble] at hrise
  have herror := twoSided_error hpos.le hsides (isFinite_of_div hfinite)
  -- What the gradient does not show of the slope is the error of the two samples.
  have htriangle := abs_sub_abs_le_abs_sub (2 * (toReal (c i) * toReal step))
    (toReal (forward - backward))
  rw [abs_sub_comm, abs_mul, abs_mul, abs_two, abs_of_pos hpos] at htriangle
  linarith

/-! ### Descents on planes -/

/-- Over doubles the step of settings that pass the check is positive. -/
theorem Settings.toReal_step_pos {s : Settings Float} (hs : s.check = .ok ()) :
    0 < toReal s.step := by
  obtain ⟨hfinite, hstep⟩ := (check_eq_ok_iff.mp hs).2.2.1
  rw [toReal_pos_iff]
  by_contra! hle
  exact hstep (le_iff.mpr ⟨not_isNaN_of_isFinite hfinite, by decide +kernel, hle⟩)

variable {σ : Type}

/-- **Where a descent has converged on a plane, every slope is explained by the error of the
samples** that the plane is known by. -/
theorem run_plane {m : Minimiser Float} {slopes : Vec Float} (hcheck : m.settings.check = .ok ())
    (hobjective : m.objective? = some (plane slopes))
    (hdouble : (Scalar.ofNat 2 * m.settings.step).isFinite) (observer : Observer (Visit Float) σ)
    (memory : σ) (x₀ : Vec Float) {sol : Solution Float}
    (hsol : (m.run observer memory x₀).outcome = .ok sol) (hconverged : sol.ending = .converged)
    {bound : Float} (hbound : m.settings.epsilon < bound) (hnormal : leastRoot ≤ toReal bound)
    {i : ℕ} {slope : Float} (hslope : slopes[i]? = some slope) :
    (|toReal slope| - toReal bound) * toReal m.settings.step <
      ((1 + roundoff) ^ (slopes.length + 8) - 1) *
        sampleSize slopes sol.point (toReal slope) (toReal m.settings.step) := by
  have hfound := found_of_run hcheck hobjective hsol
  obtain ⟨gradient, hgradient, hnorm⟩ := hfound.gradientNorm_eq
  have hshort : gradient.norm ≤ m.settings.epsilon := hnorm ▸ hfound.converged_iff.mp hconverged
  obtain ⟨n, hn⟩ : ∃ n, slopes.length = n := ⟨_, rfl⟩
  have hlength := Vec.length_eq_of_dot hfound.objective_eq
  obtain ⟨x, hx⟩ := Vec.exists_eq_ofFn (hlength.symm.trans hn)
  obtain ⟨c, rfl⟩ := Vec.exists_eq_ofFn hn
  obtain ⟨hi, rfl⟩ := List.getElem?_eq_some_iff.mp hslope
  rw [hx] at hgradient ⊢
  rw [hn, List.getElem_ofFn]
  exact slope_lt hgradient (Settings.toReal_step_pos hcheck) hdouble hshort hbound hnormal
    ⟨i, hn ▸ hi⟩

/-- One step of a fixed multiple down the slope. -/
def Settings.oneStep : Settings Float :=
  { (Settings.default : Settings Float) with
    maxIters := 1, search := .trivial, method := .gradientDescent }

/-- One step down a line that is known by its values. -/
def downhill (slope : Float) : Minimiser Float where
  settings := .oneStep
  objective? := some (plane [slope])

theorem oneStep_check : Settings.oneStep.check = .ok () :=
  check_eq_ok_iff.mpr (by decide +kernel)

/-- At `100000` a slope of three counts as zero. It is above two by no more than the error of the
samples explains. -/
theorem run_plane_far :
    ∃ sol, ((downhill 3).run .silent () [100000]).outcome = .ok sol ∧ sol.ending = .converged ∧
      (|toReal 3| - toReal (Scalar.ofNat 2)) * toReal Settings.oneStep.step <
        ((1 + roundoff) ^ 9 - 1) *
          sampleSize [3] sol.point (toReal 3) (toReal Settings.oneStep.step) := by
  obtain ⟨sol, hsol, hconverged⟩ : ∃ sol, ((downhill 3).run .silent () [100000]).outcome = .ok sol ∧
      sol.ending = .converged := exists_of_toOption_map (by decide +kernel)
  have hnormal : leastRoot ≤ toReal (Scalar.ofNat 2) := by
    rw [toReal_two, leastRoot_eq]
    exact (div_le_self zero_le_one (one_le_pow₀ one_le_two)).trans one_le_two
  have hdouble : (Scalar.ofNat 2 * Settings.oneStep.step).isFinite := by decide +kernel
  have hbound : Settings.oneStep.epsilon < Scalar.ofNat 2 := by decide +kernel
  have hobjective : (downhill 3).objective? = some (plane [3]) := rfl
  have hslope : ([3] : Vec Float)[0]? = some 3 := rfl
  exact ⟨sol, hsol, hconverged, run_plane (m := downhill 3) oneStep_check hobjective hdouble .silent
    () [100000] hsol hconverged hbound hnormal hslope⟩

/-- **A descent on a slope may have converged where it starts**: at `100000` the difference of the
two samples is zero. -/
theorem plane_converged_far :
    Settings.oneStep.check = .ok () ∧ Settings.oneStep.epsilon < 1 ∧
      (downhill 1).settings = .oneStep ∧ (downhill 1).objective? = some (plane [1]) ∧
      ∃ sol, ((downhill 1).run .silent () [100000]).outcome = .ok sol ∧
        sol.ending = .converged :=
  ⟨oneStep_check, by decide +kernel, rfl, rfl, exists_of_toOption_map (by decide +kernel)⟩

end Stepwise.Descent
