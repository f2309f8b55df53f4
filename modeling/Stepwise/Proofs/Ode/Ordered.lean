import Stepwise.Proofs.Ode.Lookup

/-!
# Whether accepted samples are in order

A trajectory is accepted if its gaps match the step, and a gap matches if it is off by no more than
the root of the single-precision gap, whatever the step. A step that is longer than that leaves no
room for a gap that is zero or negative: the times increase, and every recorded time has its
recorded state. A step that is no longer is matched by a gap of zero, so it says nothing about the
order of the samples. That makes the tolerance the exact limit
(`Stepwise.Ode.accepted_increasing_iff`).

Where the order fails a query can fail as well: with a step of a ten-thousandth of the unit two
samples are accepted of which the second is earlier than the first, and then no time at all is in
the recorded span (`Stepwise.Ode.accepted_backwards`).
-/

namespace Stepwise.Ode

open Trajectory

/-! ### Steps above the tolerance -/

variable {h : Trajectory ℝ} {k gap : ℝ}

/-- Neighbours that are in order put all samples in order. -/
theorem increasing_of_isChain (hchain : h.samples.toList.IsChain (·.time < ·.time)) :
    h.Increasing := by
  have : Trans (fun a b : Sample ℝ => a.time < b.time) (fun a b : Sample ℝ => a.time < b.time)
      (fun a b : Sample ℝ => a.time < b.time) := ⟨lt_trans⟩
  exact List.isChain_iff_pairwise.mp hchain

/-- A gap that matches a step above the tolerance leads ahead. -/
theorem Matches.time_lt {before after : Sample ℝ} (hk : spacingTolerance < k)
    (hmatch : Matches k before after) : before.time < after.time := by
  have hoff : |after.time - before.time - k| ≤ spacingTolerance := not_lt.mp hmatch
  have hlow := (abs_le.mp hoff).1
  linarith

/-- **Samples that match a step above the tolerance are in order.** -/
theorem increasing_of_requireSpacing (hk : spacingTolerance < k)
    (hh : h.requireSpacing k = .ok ()) : h.Increasing := by
  obtain ⟨-, first, rest, hlist, -, hchain⟩ := requireSpacing_eq_ok_iff.mp hh
  refine increasing_of_isChain ?_
  rw [hlist]
  exact hchain.imp fun before after hmatch => hmatch.time_lt hk

/-- In order, every recorded time has its recorded state. -/
theorem Trajectory.Increasing.stateAt_of_mem (hh : h.Increasing) {sample : Sample ℝ}
    (hsample : sample ∈ h.samples.toList) : h.stateAt sample.time = .ok sample.state := by
  obtain ⟨i, hi, rfl⟩ := List.mem_iff_getElem.mp hsample
  exact hh.stateAt_recorded (by rw [← Array.getElem?_toList, List.getElem?_eq_getElem hi])

/-! ### Two samples -/

/-- Two samples with a given gap. -/
noncomputable def pair (gap : ℝ) : Trajectory ℝ := ⟨#[⟨[1], 0⟩, ⟨[0], gap⟩]⟩

theorem pair_requireSpacing (hk : 0 < k) :
    (pair gap).requireSpacing k = .ok () ↔ |gap - k| ≤ spacingTolerance := by
  simp [requireSpacing, requireGaps, pair, hk]

theorem pair_increasing : (pair gap).Increasing ↔ 0 < gap := by
  simp [Trajectory.Increasing, pair]

/-! ### The limit -/

/-- **The samples that a step accepts are in order if and only if the step is above the tolerance**,
and every recorded time of samples in order has its recorded state. -/
theorem accepted_increasing_iff (k : ℝ) :
    ((∀ h : Trajectory ℝ, h.requireSpacing k = .ok () →
        h.Increasing ∧ ∀ sample ∈ h.samples.toList, h.stateAt sample.time = .ok sample.state) ↔
      (0 < k → spacingTolerance < k)) ∧
    ∀ h : Trajectory ℝ, h.Increasing →
      ∀ sample ∈ h.samples.toList, h.stateAt sample.time = .ok sample.state := by
  refine ⟨⟨fun hall hk => ?_, fun hk h hh => ?_⟩, fun h hh sample => hh.stateAt_of_mem⟩
  · -- A step that is not above the tolerance is matched by a gap of zero.
    by_contra hle
    have hmatch : |0 - k| ≤ spacingTolerance := by
      rw [zero_sub, abs_neg, abs_of_pos hk]
      exact not_lt.mp hle
    exact absurd (hall _ ((pair_requireSpacing hk).mpr hmatch)).1
      (fun hh => lt_irrefl _ (pair_increasing.mp hh))
  · have hpos : 0 < k := by simpa using pos_of_requireSpacing hh
    have hincreasing := increasing_of_requireSpacing (hk hpos) hh
    exact ⟨hincreasing, fun sample => hincreasing.stateAt_of_mem⟩

/-- **Samples can be accepted in the wrong order**: the gap of a ten-thousandth back is off by two
ten-thousandths from the step, which is less than the tolerance, and the time of the first sample
is then outside of the span. -/
theorem accepted_backwards :
    (pair (-1e-4)).requireSpacing 1e-4 = .ok () ∧ ¬(pair (-1e-4)).Increasing ∧
      ∃ sample ∈ (pair (-1e-4)).samples.toList,
        (pair (-1e-4)).stateAt sample.time ≠ .ok sample.state := by
  refine ⟨(pair_requireSpacing (by norm_num)).mpr ?_, ?_, ⟨[1], 0⟩, ?_, ?_⟩
  · rw [spacingTolerance_real]
    exact Real.le_sqrt_of_sq_le (by norm_num)
  · rw [pair_increasing]
    norm_num
  · simp [pair]
  · have hfirst : (pair (-1e-4)).first? = some ⟨[1], 0⟩ := rfl
    have hlast : (pair (-1e-4)).last? = some ⟨[0], -1e-4⟩ := rfl
    rw [stateAt_eq_outOfSpan hfirst hlast (by norm_num)]
    exact nofun

end Stepwise.Ode
