import Mathlib.Algebra.Order.Archimedean.Real.Basic
import Mathlib.Tactic.Linarith
import Mathlib.Tactic.Ring
import Mathlib.Tactic.Positivity
import Mathlib.Tactic.NormNum
import Stepwise.Proofs.Reals
import Stepwise.Proofs.Ode.Account

/-!
# The times at which samples are recorded

In exact arithmetic an integration from time `t₀` to the time `finish` with step `k`
records its samples on the grid `t₀ + k`, `t₀ + 2 k`, … Their number is the least number
of steps after which the time counts as reached. Only the last sample may lie off the
grid: if it would be as close to `finish` as counts as reached, it is taken at `finish`.

The tolerance occurs twice in a round, once for the time reached so far and once for the
time of the next sample, and the two do not interfere. As long as the time does not count
as reached after a step, the step does not end close to `finish` either, so the sample
stays on the grid (`Stepwise.Ode.nextTime_grid`); and a sample taken at `finish` ends
the integration in the next round (`Stepwise.Ode.reached_arrivalTime`).

So a round leads from one place of the grid to the next unless its step fails
(`Stepwise.Ode.Placed.next`), and `n` rounds lead to the last place.
-/

namespace Stepwise.Ode

variable {σ : Type} {finish k t₀ : ℝ} {n : ℕ}

theorem endTolerance_real (k : ℝ) : endTolerance k = 1e-6 * k := by
  simp only [endTolerance, Scalar.ratio_real]
  norm_num

/-! ### The grid -/

/-- The least number of steps of size `k` after which the time `finish` counts as reached
from `t₀`. -/
def IsStepCount (finish k t₀ : ℝ) (n : ℕ) : Prop :=
  IsLeast {n : ℕ | finish - (t₀ + n * k) ≤ 1e-6 * k} n

/-- The time of new sample number `i` of `n`: the last one is moved to `finish` if it would
come to lie close to it. -/
noncomputable def arrivalTime (finish k t₀ : ℝ) (n i : ℕ) : ℝ :=
  if i = n ∧ |finish - (t₀ + n * k)| ≤ 1e-6 * k then finish else t₀ + i * k

/-- With a positive step some number of steps is enough. -/
theorem exists_isStepCount (hk : 0 < k) : ∃ n, IsStepCount finish k t₀ n := by
  obtain ⟨m, hm⟩ := exists_nat_ge ((finish - t₀) / k)
  have hreached : finish - (t₀ + m * k) ≤ 1e-6 * k := by
    have hspan : finish - t₀ ≤ m * k := (div_le_iff₀ hk).mp hm
    have htol : 0 ≤ 1e-6 * k := by positivity
    linarith
  classical
  have hex : ∃ m : ℕ, finish - (t₀ + m * k) ≤ 1e-6 * k := ⟨m, hreached⟩
  exact ⟨Nat.find hex, Nat.find_spec hex, fun m hm => Nat.find_min' hex hm⟩

/-- A place of the grid takes as many steps as its number says. -/
theorem isStepCount_add (hk : 0 < k) (t₀ : ℝ) (n : ℕ) : IsStepCount (t₀ + n * k) k t₀ n := by
  constructor
  · rw [Set.mem_ofPred_eq, sub_self]
    positivity
  · intro m hm
    by_contra! hlt
    have hcast : (m + 1 : ℝ) ≤ n := by exact_mod_cast hlt
    have hstep := mul_le_mul_of_nonneg_right hcast hk.le
    rw [Set.mem_ofPred_eq] at hm
    linarith

/-- Before the last step the time does not count as reached. -/
theorem IsStepCount.not_reached (h : IsStepCount finish k t₀ n) {i : ℕ} (hi : i < n) :
    1e-6 * k < finish - (t₀ + i * k) := by
  by_contra hle
  exact absurd (h.2 (not_lt.mp hle)) (Nat.not_le.mpr hi)

theorem arrivalTime_of_lt {i : ℕ} (hi : i < n) : arrivalTime finish k t₀ n i = t₀ + i * k :=
  if_neg fun h => absurd h.1 (Nat.ne_of_lt hi)

/-- **The next sample after `i` steps is recorded at its place on the grid.** -/
theorem nextTime_grid (h : IsStepCount finish k t₀ n) {i : ℕ} (hi : i < n) :
    nextTime finish k (t₀ + i * k) = arrivalTime finish k t₀ n (i + 1) := by
  have hnext : t₀ + i * k + k = t₀ + ((i + 1 : ℕ) : ℝ) * k := by
    push_cast
    ring
  simp only [nextTime, Scalar.abs_real, endTolerance_real, hnext]
  rcases Nat.lt_or_ge (i + 1) n with hlt | hge
  · -- The sample is not the last, so it is too early to be moved.
    rw [arrivalTime_of_lt hlt, if_neg]
    exact not_le.mpr ((h.not_reached hlt).trans_le (le_abs_self _))
  · obtain rfl : i + 1 = n := by omega
    simp only [arrivalTime, true_and]

/-- **After the last sample the time counts as reached**, wherever that sample is. -/
theorem reached_arrivalTime (hk : 0 < k) (h : IsStepCount finish k t₀ n) :
    finish - arrivalTime finish k t₀ n n ≤ 1e-6 * k := by
  rw [arrivalTime]
  split_ifs with hclose
  · have htol : 0 ≤ 1e-6 * k := by positivity
    linarith
  · exact h.1

/-- The last sample is not before `finish`, and less than a step after it. -/
theorem arrivalTime_bounds (hk : 0 < k) (h : IsStepCount finish k t₀ n) (hn : 0 < n) :
    finish ≤ arrivalTime finish k t₀ n n ∧
      arrivalTime finish k t₀ n n < finish + k - 1e-6 * k := by
  obtain ⟨m, rfl⟩ : ∃ m, n = m + 1 := ⟨n - 1, by omega⟩
  have hbefore := h.not_reached (Nat.lt_succ_self m)
  have hreached : finish - (t₀ + ((m + 1 : ℕ) : ℝ) * k) ≤ 1e-6 * k := h.1
  rw [arrivalTime]
  push_cast at hreached ⊢
  split_ifs with hclose
  · exact ⟨le_rfl, by linarith⟩
  · -- A sample that is not moved is reached only by passing `finish`.
    have hpast : finish - (t₀ + (m + 1) * k) < -(1e-6 * k) := by
      by_contra hge
      exact hclose ⟨rfl, abs_le.mpr ⟨not_lt.mp hge, hreached⟩⟩
    have htol : 0 ≤ 1e-6 * k := by positivity
    exact ⟨by linarith, by linarith⟩

/-- The times of the new samples increase, from the last old one on. -/
theorem arrivalTime_lt (hk : 0 < k) (h : IsStepCount finish k t₀ n) {i j : ℕ} (hij : i < j)
    (hj : j ≤ n) : t₀ + i * k < arrivalTime finish k t₀ n j := by
  have hgrid : t₀ + i * k < t₀ + j * k := by
    have hcast : (i : ℝ) < j := by exact_mod_cast hij
    have hspan := mul_lt_mul_of_pos_right hcast hk
    linarith
  rw [arrivalTime]
  split_ifs with hclose
  · have hearly := h.not_reached (hij.trans_le hj)
    have htol : 0 ≤ 1e-6 * k := by positivity
    linarith
  · exact hgrid

/-- The time reached after `i` of `n` steps. -/
noncomputable def timeAfter (finish k t₀ : ℝ) (n i : ℕ) : ℝ :=
  if i = 0 then t₀ else arrivalTime finish k t₀ n i

theorem timeAfter_of_lt {i : ℕ} (hi : i < n) : timeAfter finish k t₀ n i = t₀ + i * k := by
  rw [timeAfter]
  split_ifs with hzero
  · simp [hzero]
  · exact arrivalTime_of_lt hi

theorem timeAfter_succ (i : ℕ) :
    timeAfter finish k t₀ n (i + 1) = arrivalTime finish k t₀ n (i + 1) := if_neg i.succ_ne_zero

/-- **After all steps the time counts as reached**, and not before. -/
theorem timeAfter_reached_iff (hk : 0 < k) (h : IsStepCount finish k t₀ n) {i : ℕ} (hi : i ≤ n) :
    finish - timeAfter finish k t₀ n i ≤ endTolerance k ↔ i = n := by
  rw [endTolerance_real]
  constructor
  · intro hreached
    by_contra hne
    have hlt : i < n := Nat.lt_of_le_of_ne hi hne
    rw [timeAfter_of_lt hlt] at hreached
    exact absurd hreached (not_le.mpr (h.not_reached hlt))
  · rintro rfl
    rw [timeAfter]
    split_ifs with hzero
    · have hstart : finish - (t₀ + i * k) ≤ 1e-6 * k := h.1
      simpa [hzero] using hstart
    · exact reached_arrivalTime hk h

/-! ### The integration -/

section Run

/-- The new trajectory is the old one with the first `i` of `n` samples of the grid
appended. -/
def OnGrid (old : Trajectory ℝ) (finish k t₀ : ℝ) (n i : ℕ) (new : Trajectory ℝ) : Prop :=
  ∃ added, new.samples.toList = old.samples.toList ++ added ∧
    added.map Sample.time = (List.range' 1 i).map (arrivalTime finish k t₀ n)

/-- The integration is at place `i` of the grid. -/
structure Placed (old : Trajectory ℝ) (finish k t₀ : ℝ) (n i : ℕ) (q : Progress ℝ σ) :
    Prop where
  /-- The samples so far are those of the grid. -/
  onGrid : OnGrid old finish k t₀ n i q.trajectory
  /-- The last of them is at the time that belongs to the place. -/
  last : ∃ here, q.trajectory.last? = some here ∧ here.time = timeAfter finish k t₀ n i

/-- The integration fails because the step from its last sample does. -/
structure Stuck (p : Problem ℝ) (f : Field ℝ) (scheme : Scheme ℝ) (finish k t₀ : ℝ) (n : ℕ)
    (report : Report ℝ σ) : Prop where
  /-- Some samples of the grid are appended, but not all. -/
  onGrid : ∃ i < n, OnGrid p.trajectory finish k t₀ n i report.trajectory
  /-- The next step fails. -/
  step_eq_error : ∃ here e, report.trajectory.last? = some here ∧
    (scheme.step f report.trajectory here k p.minimiser).outcome = .error e
  /-- The integration fails with it. -/
  outcome_eq_error : ∃ e, report.outcome = .error e

/-- The integration is complete after `n` steps on the grid. -/
structure Gridded (old : Trajectory ℝ) (finish k t₀ : ℝ) (n : ℕ) (report : Report ℝ σ) :
    Prop where
  /-- Just the samples of the grid are appended. -/
  onGrid : OnGrid old finish k t₀ n n report.trajectory
  /-- Their times increase strictly. -/
  increasing : ((List.range' 1 n).map (arrivalTime finish k t₀ n)).Pairwise (· < ·)
  /-- The outcome counts them and names the time of the last sample, which has passed
  `finish`, if at all, by less than a step. -/
  complete : ∃ last, report.trajectory.last? = some last ∧
    report.outcome = .ok ⟨.complete, n, last.time⟩ ∧
    (0 < n → finish ≤ last.time ∧ last.time < finish + k - 1e-6 * k)

variable {p : Problem ℝ} {f : Field ℝ} {scheme : Scheme ℝ} {observer : Observer (Arrival ℝ) σ}
  {memory : σ} {last : Sample ℝ}

theorem OnGrid.push {old new : Trajectory ℝ} {i : ℕ} (h : OnGrid old finish k t₀ n i new)
    {sample : Sample ℝ} (hsample : sample.time = arrivalTime finish k t₀ n (i + 1)) :
    OnGrid old finish k t₀ n (i + 1) (new.push sample) := by
  obtain ⟨added, hadded, htimes⟩ := h
  refine ⟨added ++ [sample], by simp [hadded], ?_⟩
  rw [List.map_append, htimes, List.range'_1_concat, List.map_append, Nat.add_comm 1 i]
  simp [hsample]

/-- The times of the new samples increase strictly. -/
theorem pairwise_arrivalTime (hk : 0 < k) (h : IsStepCount finish k t₀ n) :
    ((List.range' 1 n).map (arrivalTime finish k t₀ n)).Pairwise (· < ·) := by
  rw [List.pairwise_map]
  refine List.Pairwise.imp_of_mem ?_ List.pairwise_lt_range'
  intro i j hi hj hij
  rw [List.mem_range'_1] at hi hj
  rw [arrivalTime_of_lt (show i < n by omega)]
  exact arrivalTime_lt hk h hij (by omega)

/-- **One round on the grid**: the step fails, or it leads to the next place. -/
theorem Placed.next (hk : 0 < k) (hn : IsStepCount finish k t₀ n) (hsilent : observer.Silent)
    {i : ℕ} (hi : i < n) {q : Progress ℝ σ} (h : Placed p.trajectory finish k t₀ n i q) :
    (∃ report, q.next f scheme p.minimiser observer finish k i = .done report ∧
      Stuck p f scheme finish k t₀ n report) ∨
    ∃ q', q.next f scheme p.minimiser observer finish k i = .again q' ∧
      Placed p.trajectory finish k t₀ n (i + 1) q' := by
  obtain ⟨here, hhere, htime⟩ := h.last
  have hend : ¬finish - here.time ≤ endTolerance k := by
    rw [htime, timeAfter_reached_iff hk hn hi.le]
    exact hi.ne
  -- So a step is made. It fails, or it is recorded, since the observer lets the run go on.
  cases hstep : (scheme.step f q.trajectory here k p.minimiser).outcome with
  | error e =>
    refine .inl ⟨_, passage_iff.mp (.failure hhere hend hstep), ?_⟩
    have hfew : ∃ j < n, OnGrid p.trajectory finish k t₀ n j q.trajectory := ⟨i, hi, h.onGrid⟩
    cases e with
    | fault fault => exact ⟨hfew, ⟨here, _, hhere, hstep⟩, _, rfl⟩
    | error cause => exact ⟨hfew, ⟨here, _, hhere, hstep⟩, _, rfl⟩
  | ok state =>
    have hsample : nextTime finish k here.time = arrivalTime finish k t₀ n (i + 1) := by
      rw [htime, timeAfter_of_lt hi]
      exact nextTime_grid hn hi
    refine .inr ⟨_, passage_iff.mp (.onward hhere hend hstep rfl (hsilent q.observer _)), ?_⟩
    exact ⟨h.onGrid.push hsample, _, Trajectory.last?_push, by rw [timeAfter_succ]; exact hsample⟩

/-- **All rounds on the grid**: after `i` steps either one of them has failed, or the
integration is at place `i`. -/
theorem stuck_or_placed (f : Field ℝ) (scheme : Scheme ℝ) (memory : σ) (hk : 0 < k)
    (hlast : p.trajectory.last? = some last) (hsilent : observer.Silent)
    (hn : IsStepCount finish k last.time n) {i : ℕ} (hi : i ≤ n) :
    (∃ j < i, ∃ q report, Reaches p f scheme observer memory finish k j q ∧
      q.next f scheme p.minimiser observer finish k j = .done report ∧
      Stuck p f scheme finish k last.time n report) ∨
    ∃ q, Reaches p f scheme observer memory finish k i q ∧
      Placed p.trajectory finish k last.time n i q := by
  induction i with
  | zero =>
    refine .inr ⟨p.start scheme memory finish k, Reaches.zero.mpr rfl, ?_⟩
    exact ⟨⟨[], by simp [Problem.start]⟩, last, hlast, rfl⟩
  | succ i ih =>
    rcases ih (by omega) with ⟨j, hj, q, report, hreach, hdone, hstuck⟩ | ⟨q, hreach, hplaced⟩
    · exact .inl ⟨j, by omega, q, report, hreach, hdone, hstuck⟩
    rcases hplaced.next hk hn hsilent (by omega) with
      ⟨report, hdone, hstuck⟩ | ⟨q', hnext, hplaced'⟩
    · exact .inl ⟨i, by omega, q, report, hreach, hdone, hstuck⟩
    · exact .inr ⟨q', Reaches.succ.mpr ⟨q, hreach, hnext⟩, hplaced'⟩

/-! ### Steps of the decay -/

theorem decay_ready (hk : 0 < k) : (decay : Problem ℝ).ready k =
    .ok (fun u _ => .ok u.neg, .multistep (Multistep.ofPreset .forwardEuler)) := by
  simp [Problem.ready, decay, Trajectory.requireSpacing, Trajectory.requireGaps,
    Trajectory.requireDepth, Scheme.depth, Multistep.depth, Multistep.ofPreset,
    Trajectory.size, Except.mapError, hk]

/-- No step of the decay fails, from whatever sample. -/
theorem exists_decay_step {h : Trajectory ℝ} (hlast : h.last? = some last) (k : ℝ)
    (m : Descent.Minimiser ℝ) :
    ∃ state, ((Scheme.multistep (Multistep.ofPreset .forwardEuler)).step (fun u _ => .ok u.neg) h
      last k m).outcome = .ok state := by
  have hrecent : h.recent (Multistep.ofPreset .forwardEuler : Multistep ℝ).depth = [last] :=
    Trajectory.recent_one hlast
  simp only [Scheme.step, Multistep.step, hrecent]
  simp [Multistep.known, Multistep.ofPreset, Multistep.addStates, Multistep.addSlopes,
    Multistep.isExplicit, Multistep.leading, Vec.zero, Vec.scale, Vec.neg, Vec.add, Vec.combine,
    Scalar.singleGap, Step.explicit]

/-! ### The whole integration -/

/-- **Samples are recorded on the grid.** In exact arithmetic an integration that is not
refused, under an observer that lets it go on, ends: because a step fails, or with one
sample at every place of the grid up to the first at which the time counts as reached. -/
theorem integrate_grid (hready : p.ready k = .ok (f, scheme))
    (hlast : p.trajectory.last? = some last) (hsilent : observer.Silent) :
    ∃ n, IsStepCount finish k last.time n ∧
      ∃ report, p.integrate observer memory finish k (n + 1) = some report ∧
        (Stuck p f scheme finish k last.time n report ∨
          Gridded p.trajectory finish k last.time n report) := by
  have hk : 0 < k := by
    simpa using pos_of_requireSpacing (requireSpacing_of_ready hready)
  obtain ⟨n, hn⟩ : ∃ n, IsStepCount finish k last.time n := exists_isStepCount hk
  refine ⟨n, hn, ?_⟩
  rcases stuck_or_placed f scheme memory hk hlast hsilent hn le_rfl with
    ⟨j, hj, q, report, hreach, hdone, hstuck⟩ | ⟨q, hreach, hgrid, here, hhere, htime⟩
  · exact ⟨report, integrate_eq_some.mpr (.last hready (by omega) hreach hdone), .inl hstuck⟩
  · have hend : finish - here.time ≤ endTolerance k := by
      rw [htime, timeAfter_reached_iff hk hn le_rfl]
    have hpassage : Passage f scheme p.minimiser observer finish k n q _ := .reached hhere hend
    refine ⟨_, integrate_eq_some.mpr
      (.last hready n.lt_succ_self hreach (passage_iff.mp hpassage)), .inr ?_⟩
    refine ⟨hgrid, pairwise_arrivalTime hk hn, here, hhere, rfl, fun hpos => ?_⟩
    rw [htime, timeAfter, if_neg (by omega)]
    exact arrivalTime_bounds hk hn hpos

/-- The integration of the decay up to one by steps of a half is complete after the second. -/
theorem integrate_grid_decay :
    ∃ report : Report ℝ Unit, decay.integrate .silent () 1 (1 / 2) 3 = some report ∧
      Gridded decay.trajectory 1 (1 / 2) 0 2 report ∧
      report.trajectory.samples.toList.map Sample.time = [0, 1 / 2, 1] := by
  have hlast : (decay : Problem ℝ).trajectory.last? = some ⟨[1], 0⟩ := by
    simp [decay, Trajectory.last?]
  obtain ⟨n, hn, report, hreport, hends⟩ : ∃ n, IsStepCount 1 (1 / 2) 0 n ∧
      ∃ report : Report ℝ Unit, decay.integrate .silent () 1 (1 / 2) (n + 1) = some report ∧
        (Stuck decay (fun u _ => .ok u.neg) (.multistep (Multistep.ofPreset .forwardEuler)) 1 (1 / 2)
          0 n report ∨ Gridded decay.trajectory 1 (1 / 2) 0 n report) :=
    integrate_grid (decay_ready one_half_pos) hlast Observer.silent_silent
  have hcount : IsStepCount 1 (1 / 2) 0 2 := by
    simpa using isStepCount_add one_half_pos 0 2
  obtain rfl : n = 2 := hn.unique hcount
  rcases hends with ⟨-, ⟨here, e, hhere, hstep⟩, -⟩ | hgridded
  · obtain ⟨state, hstate⟩ := exists_decay_step hhere (1 / 2) (decay : Problem ℝ).minimiser
    cases hstate.symm.trans hstep
  · refine ⟨report, hreport, hgridded, ?_⟩
    obtain ⟨added, hadded, htimes⟩ := hgridded.onGrid
    rw [hadded, List.map_append, htimes]
    norm_num [decay, arrivalTime, List.range']

end Run

end Stepwise.Ode
