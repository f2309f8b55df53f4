import Stepwise.Proofs.Doubles.Arithmetic
import Stepwise.Proofs.Ode.Spacing

/-!
# What is wrong with samples that are not evenly spaced

A trajectory that is refused has a first flaw, and the error names it. First the step has to make
sense, then there has to be a sample. After that the samples are looked at one after the other,
each with the one before it, and of the two things that can be wrong with a sample the number of
its components comes before the gap (`Stepwise.Ode.Flaw`). So the error is known from the samples
alone, and nothing is wrong with those before the one that it names
(`Stepwise.Ode.requireSpacing_eq_error_iff`).

All of that is the same over every kind of numbers. What a matching gap is depends on them, since
a gap matches if it is *not* off by more than a tolerance. Over doubles that is to be off by no
more than the tolerance, or to be undefined (`Stepwise.Ode.matches_iff_tolerated`). The step is not
allowed to be undefined, but the times are, and a time that is undefined, like an infinite one
that is repeated, makes a gap that is accepted (`Stepwise.Ode.requireSpacing_undefined`).
-/

namespace Stepwise.Ode

open Trajectory

/-! ### One sample after the other -/

section Generic

variable {R : Type} [Scalar R] {even : Sample R → Sample R → Prop} {dimension index : ℕ} {k : R}
  {before sample : Sample R} {rest : List (Sample R)} {e : TrajectoryError R}

/-- Nothing is wrong with a sample that comes after another. -/
structure Flawless (even : Sample R → Sample R → Prop) (dimension : ℕ) (before sample : Sample R) :
    Prop where
  /-- It has the right number of components. -/
  length_eq : sample.state.length = dimension
  /-- The gap before it is right. -/
  even : even before sample

/-- What is wrong with the sample of some number that comes after another. -/
inductive Flaw (even : Sample R → Sample R → Prop) (dimension : ℕ) (k : R) (index : ℕ)
    (before sample : Sample R) : TrajectoryError R → Prop
  /-- It has another number of components. -/
  | dimension (hlength : sample.state.length ≠ dimension) :
      Flaw even dimension k index before sample
        (.dimensionMismatch index dimension sample.state.length)
  /-- The gap before it is wrong. -/
  | gap (hlength : sample.state.length = dimension) (huneven : ¬even before sample) :
      Flaw even dimension k index before sample (.spacing index (sample.time - before.time) k)

theorem Flaw.not_flawless (h : Flaw even dimension k index before sample e) :
    ¬Flawless even dimension before sample := fun hflawless => by
  cases h with
  | dimension hlength => exact hlength hflawless.length_eq
  | gap _ huneven => exact huneven hflawless.even

/-- Of what is wrong with a sample the number of its components comes first. -/
theorem Flaw.unique {e' : TrajectoryError R} (h : Flaw even dimension k index before sample e)
    (h' : Flaw even dimension k index before sample e') : e = e' := by
  cases h with
  | dimension hlength =>
    cases h' with
    | dimension => rfl
    | gap hlength' => exact absurd hlength' hlength
  | gap hlength =>
    cases h' with
    | dimension hlength' => exact absurd hlength hlength'
    | gap => rfl

theorem flawless_or_flaw (even : Sample R → Sample R → Prop) (dimension : ℕ) (k : R) (index : ℕ)
    (before sample : Sample R) : Flawless even dimension before sample ∨
      ∃ e, Flaw even dimension k index before sample e := by
  by_cases hlength : sample.state.length = dimension
  · by_cases heven : even before sample
    · exact .inl ⟨hlength, heven⟩
    · exact .inr ⟨_, .gap hlength heven⟩
  · exact .inr ⟨_, .dimension hlength⟩

/-- The check goes on after a sample that nothing is wrong with. -/
theorem Flawless.requireGaps_eq (h : Flawless (Matches k) dimension before sample) :
    requireGaps dimension k index before (sample :: rest) =
      requireGaps dimension k (index + 1) sample rest := by
  have heven : ¬spacingTolerance < Scalar.abs (sample.time - before.time - k) := h.even
  rw [requireGaps, if_neg (not_not.mpr h.length_eq), if_neg heven]

/-- The check ends at any other, with what is wrong. -/
theorem Flaw.requireGaps_eq (h : Flaw (Matches k) dimension k index before sample e) :
    requireGaps dimension k index before (sample :: rest) = .error e := by
  cases h with
  | dimension hlength => rw [requireGaps, if_pos hlength]
  | gap hlength huneven =>
    have hfar : spacingTolerance < Scalar.abs (sample.time - before.time - k) :=
      not_not.mp huneven
    rw [requireGaps, if_neg (not_not.mpr hlength), if_pos hfar]

/-- **The check names the first sample that something is wrong with.** -/
theorem requireGaps_eq_error_iff :
    requireGaps dimension k index before rest = .error e ↔
      ∃ i l r, (before :: rest)[i]? = some l ∧ rest[i]? = some r ∧
        Flaw (Matches k) dimension k (index + i) l r e ∧
        ∀ j < i, ∀ l r, (before :: rest)[j]? = some l → rest[j]? = some r →
          Flawless (Matches k) dimension l r := by
  induction rest generalizing index before with
  | nil => simp [requireGaps]
  | cons sample rest ih =>
    rcases flawless_or_flaw (Matches k) dimension k index before sample with hflawless | ⟨e', hflaw⟩
    · rw [hflawless.requireGaps_eq, ih]
      constructor
      · rintro ⟨i, l, r, hl, hr, hflaw, hearlier⟩
        rw [Nat.add_right_comm] at hflaw
        refine ⟨i + 1, l, r, hl, hr, hflaw, fun j hj l r hl hr => ?_⟩
        cases j with
        | zero =>
          cases hl
          cases hr
          exact hflawless
        | succ j => exact hearlier j (by omega) l r hl hr
      · rintro ⟨i, l, r, hl, hr, hflaw, hearlier⟩
        cases i with
        | zero =>
          cases hl
          cases hr
          exact absurd hflawless hflaw.not_flawless
        | succ i =>
          refine ⟨i, l, r, hl, hr, ?_, fun j hj => hearlier (j + 1) (by omega)⟩
          rwa [Nat.add_right_comm]
    · rw [hflaw.requireGaps_eq]
      constructor
      · rintro ⟨⟩
        exact ⟨0, before, sample, rfl, rfl, hflaw, fun j hj => absurd hj (by omega)⟩
      · rintro ⟨i, l, r, hl, hr, hflaw', hearlier⟩
        cases i with
        | zero =>
          cases hl
          cases hr
          rw [hflaw.unique hflaw']
        | succ i => exact absurd (hearlier 0 (by omega) _ _ rfl rfl) hflaw.not_flawless

/-! ### All samples -/

/-- A step that makes sense. -/
def Meaningful (k : R) : Prop := Scalar.ofNat 0 < k ∧ Scalar.isFinite k = true

variable {h : Trajectory R}

/-- Nothing is wrong with the step, nor with the samples. -/
structure Spaced (even : Sample R → Sample R → Prop) (h : Trajectory R) (k : R) : Prop where
  /-- The step makes sense. -/
  meaningful : Meaningful k
  /-- There is a sample, and all have as many components. -/
  dimension : ∃ first, h.samples[0]? = some first ∧
    ∀ sample ∈ h.samples, sample.state.length = first.state.length
  /-- The gaps are right. -/
  even : ∀ i l r, h.samples[i]? = some l → h.samples[i + 1]? = some r → even l r

/-- The first thing that is wrong, with the step or with the samples. -/
inductive Violation (even : Sample R → Sample R → Prop) (h : Trajectory R) (k : R) :
    TrajectoryError R → Prop
  /-- The step makes no sense. -/
  | step (hk : ¬Meaningful k) : Violation even h k (.nonPositiveStep k)
  /-- There is no sample. -/
  | empty (hk : Meaningful k) (hempty : h.samples = #[]) : Violation even h k .empty
  /-- Something is wrong with a sample, and nothing with those before it. -/
  | flaw (hk : Meaningful k) {first l r : Sample R} {i : ℕ} {e : TrajectoryError R}
      (hfirst : h.samples[0]? = some first) (hl : h.samples[i]? = some l)
      (hr : h.samples[i + 1]? = some r) (hflaw : Flaw even first.state.length k (i + 1) l r e)
      (hearlier : ∀ j < i, ∀ l r, h.samples[j]? = some l → h.samples[j + 1]? = some r →
        Flawless even first.state.length l r) : Violation even h k e

/-- If the step makes no sense, that is the first thing that is wrong. -/
theorem violation_iff_step (hk : ¬Meaningful k) :
    Violation even h k e ↔ e = .nonPositiveStep k := by
  constructor
  · rintro (- | ⟨hk', -⟩ | ⟨hk', -⟩)
    · rfl
    · exact absurd hk' hk
    · exact absurd hk' hk
  · rintro rfl
    exact .step hk

omit [Scalar R] in
theorem getElem?_samples {samples : List (Sample R)} (hlist : h.samples.toList = samples) (i : ℕ) :
    h.samples[i]? = samples[i]? := by
  rw [← hlist, Array.getElem?_toList]

/-- **Samples are accepted if nothing is wrong with them.** -/
theorem requireSpacing_eq_ok_iff_spaced : h.requireSpacing k = .ok () ↔ Spaced (Matches k) h k := by
  rw [requireSpacing_eq_ok_iff]
  constructor
  · rintro ⟨hk, first, rest, hlist, hlength, hchain⟩
    have hget := getElem?_samples hlist
    refine ⟨hk, ⟨first, hget 0, fun sample hsample => ?_⟩, fun i l r hl hr => ?_⟩
    · rw [← Array.mem_toList_iff, hlist] at hsample
      rcases List.mem_cons.mp hsample with rfl | hmem
      · rfl
      · exact hlength sample hmem
    · rw [hget, List.getElem?_eq_some_iff] at hl hr
      obtain ⟨hi, rfl⟩ := hl
      obtain ⟨hi', rfl⟩ := hr
      exact List.isChain_iff_getElem.mp hchain i hi'
  · rintro ⟨hk, ⟨first, hfirst, hlength⟩, heven⟩
    cases hlist : h.samples.toList with
    | nil =>
      rw [getElem?_samples hlist] at hfirst
      exact nomatch hfirst
    | cons head rest =>
      have hget := getElem?_samples hlist
      obtain rfl : head = first := Option.some.inj ((hget 0).symm.trans hfirst)
      refine ⟨hk, head, rest, rfl, fun sample hsample => hlength sample ?_, ?_⟩
      · rw [← Array.mem_toList_iff, hlist]
        exact List.mem_cons_of_mem head hsample
      · rw [List.isChain_iff_getElem]
        intro i hi
        refine heven i _ _ ?_ ?_
        · rw [hget, List.getElem?_eq_getElem]
        · rw [hget, List.getElem?_eq_getElem]

/-- **Samples are refused for the first thing that is wrong with them.** -/
theorem requireSpacing_eq_error_iff :
    h.requireSpacing k = .error e ↔ Violation (Matches k) h k e := by
  rw [requireSpacing]
  by_cases hk : Meaningful k
  · rw [if_pos (by simpa [Meaningful] using hk)]
    cases hlist : h.samples.toList with
    | nil =>
      have hempty : h.samples = #[] := by simpa using hlist
      constructor
      · rintro ⟨⟩
        exact .empty hk hempty
      · rintro (hk' | - | ⟨-, hfirst, hl, hr, hflaw, hearlier⟩)
        · exact absurd hk hk'
        · rfl
        · simp [hempty] at hfirst
    | cons first rest =>
      have hget := getElem?_samples hlist
      dsimp only
      rw [requireGaps_eq_error_iff]
      constructor
      · rintro ⟨i, l, r, hl, hr, hflaw, hearlier⟩
        rw [Nat.add_comm] at hflaw
        refine .flaw hk (hget 0) ((hget i).trans hl) ((hget (i + 1)).trans hr) hflaw ?_
        intro j hj l r hl hr
        exact hearlier j hj l r ((hget j).symm.trans hl) ((hget (j + 1)).symm.trans hr)
      · rintro (hk' | ⟨-, hempty⟩ | ⟨-, hfirst, hl, hr, hflaw, hearlier⟩)
        · exact absurd hk hk'
        · simp [hempty] at hlist
        · rw [hget] at hfirst hl hr
          cases hfirst
          rw [Nat.add_comm] at hflaw
          refine ⟨_, _, _, hl, hr, hflaw, fun j hj l r hl hr => ?_⟩
          exact hearlier j hj l r ((hget j).trans hl) ((hget (j + 1)).trans hr)
  · rw [if_neg (by simpa [Meaningful] using hk), violation_iff_step hk, Except.error.injEq, eq_comm]

end Generic

/-! ### Doubles -/

section Doubles

open Double

variable {k : Float} {before sample : Sample Float}

/-- What a gap is that matches the step: it is off by no more than the tolerance, or undefined. -/
def Tolerated (k : Float) (before sample : Sample Float) : Prop :=
  (sample.time - before.time).isNaN ∨
    (sample.time - before.time - k).abs ≤ (spacingTolerance : Float)

/-- **A gap matches if it is off by no more than the tolerance, and if it is undefined.** -/
theorem matches_iff_tolerated (hk : k.isFinite) :
    Matches k before sample ↔ Tolerated k before sample := by
  have htolerance : ¬(spacingTolerance : Float).isNaN := by decide +kernel
  rw [Matches, Tolerated]
  change ¬spacingTolerance < (sample.time - before.time - k).abs ↔ _
  generalize sample.time - before.time = gap
  by_cases hgap : gap.isNaN
  · have hoff : (gap - k).abs.isNaN := by
      rw [isNaN_abs, isNaN_sub_iff hk]
      exact hgap
    exact iff_of_true (fun hlt => (lt_iff.mp hlt).2.1 hoff) (.inl hgap)
  · have hoff : ¬(gap - k).abs.isNaN := by rwa [isNaN_abs, isNaN_sub_iff hk]
    rw [or_iff_right hgap]
    refine ⟨le_of_not_lt htolerance hoff, fun hle hlt => ?_⟩
    exact (lt_iff.mp hlt).2.2.not_ge (le_iff.mp hle).2.2

/-- **What samples are accepted over doubles, and what is wrong with the others**: the samples that
are evenly spaced are accepted, and so are those with undefined gaps; of any others the first thing
that is wrong is named. -/
theorem requireSpacing_names (h : Trajectory Float) (k : Float) :
    (h.requireSpacing k = .ok () ↔ Spaced (Tolerated k) h k) ∧
      ∀ e, h.requireSpacing k = .error e ↔ Violation (Tolerated k) h k e := by
  rw [requireSpacing_eq_ok_iff_spaced]
  simp only [requireSpacing_eq_error_iff]
  by_cases hk : k.isFinite
  · have hsame : Matches k = Tolerated k := by
      funext before sample
      exact propext (matches_iff_tolerated hk)
    rw [hsame]
    exact ⟨Iff.rfl, fun _ => Iff.rfl⟩
  · have hstep : ¬Meaningful k := fun hmeaningful => hk hmeaningful.2
    refine ⟨iff_of_false (fun hs => hstep hs.meaningful) fun hs => hstep hs.meaningful,
      fun e => ?_⟩
    rw [violation_iff_step hstep, violation_iff_step hstep]

/-- Two samples, of which the second one was taken at an undefined time. -/
def undefinedTime : Trajectory Float := ⟨#[⟨[1], 0⟩, ⟨[1], 0 / 0⟩]⟩

/-- **Samples with an undefined gap are accepted**, although the gap is not within the tolerance. -/
theorem requireSpacing_undefined :
    undefinedTime.requireSpacing (1 / 2) = .ok () ∧
      ∃ before sample, undefinedTime.samples[0]? = some before ∧
        undefinedTime.samples[1]? = some sample ∧ (sample.time - before.time).isNaN ∧
        ¬(sample.time - before.time - 1 / 2).abs ≤ (spacingTolerance : Float) := by
  have hmatch : Matches (1 / 2 : Float) ⟨[1], 0⟩ ⟨[1], 0 / 0⟩ := by
    rw [Matches]
    decide +kernel
  refine ⟨requireSpacing_eq_ok_iff.mpr ⟨by decide +kernel, ⟨[1], 0⟩, [⟨[1], 0 / 0⟩], rfl, by simp,
    List.isChain_pair.mpr hmatch⟩, ⟨[1], 0⟩, ⟨[1], 0 / 0⟩, rfl, rfl, ?_, ?_⟩
  · decide +kernel
  · decide +kernel

end Doubles

end Stepwise.Ode
