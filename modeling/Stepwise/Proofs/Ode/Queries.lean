import Stepwise.Proofs.Ode.Sizes

/-!
# Asking for the state at a time

The place that halving arrives at is always one of those that it was given
(`Stepwise.Ode.Trajectory.halve_lt`), whatever is asked of the places in between. So a time that
is not after the last sample leads to a sample, and since the states have one dimension, there is
a state for every time of the recorded span (`Stepwise.Ode.exists_stateAt`).

An integration that is complete has recorded the time that it was asked for, if it has recorded
anything: the last sample is at that time or after it (`Stepwise.Ode.le_of_reached`). But the time
may count as reached before the first step, when a little of it is still missing. Then nothing is
recorded, and a query, which knows no tolerance, finds the time outside of the span.
-/

namespace Stepwise.Ode

/-! ### Places -/

namespace Trajectory

/-- **Halving stays among the places that it is given.** -/
theorem halve_lt (before : Nat → Bool) (base count : Nat) (hcount : 0 < count) :
    halve before base count < base + count := by
  induction count using Nat.strong_induction_on generalizing base with
  | h count ih =>
    rw [halve]
    split_ifs with hone
    · omega
    dsimp only
    split
    · have hlt := ih (count - count / 2) (by omega) (base + count / 2) (by omega)
      omega
    · have hlt := ih (count - count / 2) (by omega) base (by omega)
      omega

/-- The place found is one of those looked at, if `before` does not hold at the last. -/
theorem firstNot_lt {before : Nat → Bool} {count : Nat} (hcount : 0 < count)
    (hlast : before (count - 1) = false) : firstNot before count < count := by
  have hbase := halve_lt before 0 count hcount
  rw [Nat.zero_add] at hbase
  rw [firstNot, if_neg hcount.ne']
  dsimp only
  split
  · rename_i hbefore
    have hne : halve before 0 count ≠ count - 1 := by
      intro heq
      rw [heq, hlast] at hbefore
      exact nomatch hbefore
    omega
  · exact hbase

end Trajectory

/-! ### States -/

section States

variable {R : Type} [Scalar R] {n : Nat} {h : Trajectory R} {first last : Sample R} {time : R}

/-- Between samples of one dimension there is a state of that dimension. -/
theorem total_interpolate {l r : Sample R} (hl : l.state.length = n) (hr : r.state.length = n)
    (time : R) : Total (·.length = n) (Trajectory.interpolate l r time) :=
  Vec.total_add_scale ((l.state.length_scale _).trans hl) hr _

/-- There is a state at every place that there is. -/
theorem total_stateFrom (hh : Uniform n h) (time : R) {place : Nat} (hplace : place < h.size) :
    Total (·.length = n) (h.stateFrom time place) := by
  have hmem {i : Nat} {sample : Sample R} (hi : h.samples[i]? = some sample) :
      sample.state.length = n :=
    hh sample (Array.mem_toList_iff.mpr (Array.mem_of_getElem? hi))
  have hhere := Array.getElem?_eq_getElem hplace
  rw [Trajectory.stateFrom, hhere]
  dsimp only
  split
  · exact hmem hhere
  · split
    · exact hmem hhere
    · rename_i l hl
      exact total_interpolate (hmem hl) (hmem hhere) time

/-- In the recorded span the query goes to the place found. -/
theorem stateAt_of_span (hfirst : h.first? = some first) (hlast : h.last? = some last)
    (hlow : first.time ≤ time) (hhigh : time ≤ last.time) :
    h.stateAt time = Failure.ofFault
      (h.stateFrom time (Trajectory.firstNot (h.isEarlier time) h.size)) := by
  simp only [Trajectory.stateAt, hfirst, hlast, hlow, hhigh, decide_true, Bool.and_self, if_true]

/-- **There is a state for every time of the recorded span.** -/
theorem exists_stateAt (hh : Uniform n h) (hfirst : h.first? = some first)
    (hlast : h.last? = some last) (hlow : first.time ≤ time) (hhigh : time ≤ last.time)
    (hnot : ¬last.time < time) : ∃ state, h.stateAt time = .ok state ∧ state.length = n := by
  have hsize : 0 < h.size := by
    obtain ⟨hpos, -⟩ := Array.getElem?_eq_some_iff.mp hfirst
    exact hpos
  have hearlier : h.isEarlier time (h.size - 1) = false := by
    have hback : h.samples[h.size - 1]? = some last := by
      rw [← hlast, Trajectory.last?, Array.back?_eq_getElem?]
      rfl
    simp only [Trajectory.isEarlier, hback, hnot, decide_false]
  obtain ⟨state, hstate, hlength⟩ :=
    total_iff.mp (total_stateFrom hh time (Trajectory.firstNot_lt hsize hearlier))
  refine ⟨state, ?_, hlength⟩
  rw [stateAt_of_span hfirst hlast hlow hhigh, hstate, Failure.ofFault_ok]

/-- A time that is not between the first sample and the last is outside of the span. -/
theorem stateAt_eq_outOfSpan (hfirst : h.first? = some first) (hlast : h.last? = some last)
    (houtside : ¬(first.time ≤ time ∧ time ≤ last.time)) :
    h.stateAt time = .error (.error (.outOfSpan time first.time last.time)) := by
  have hfalse : (decide (first.time ≤ time) && decide (time ≤ last.time)) = false := by
    rw [← Bool.decide_and, decide_eq_false houtside]
  simp only [Trajectory.stateAt, hfirst, hlast, hfalse, Bool.false_eq_true, if_false]

end States

/-! ### The time of an integration -/

section Run

variable {σ : Type} {p : Problem ℝ} {f : Field ℝ} {scheme : Scheme ℝ}
  {observer : Observer (Arrival ℝ) σ} {memory : σ} {finish k : ℝ}

/-- A sample at which the time counts as reached is not before it: if it were before it and as
close as that, it would have been moved. -/
theorem le_nextTime {time : ℝ} (hend : finish - nextTime finish k time ≤ endTolerance k) :
    finish ≤ nextTime finish k time := by
  rw [nextTime, Scalar.abs_real] at hend ⊢
  split_ifs at hend ⊢ with hclose
  · exact le_rfl
  · by_contra hbefore
    rw [abs_of_pos (sub_pos.mpr (not_le.mp hbefore))] at hclose
    exact hclose hend

/-- **An integration that has recorded something and is complete has recorded the time.** -/
theorem le_of_reached {i : ℕ} {q : Progress ℝ σ} {last : Sample ℝ}
    (h : Reaches p f scheme observer memory finish k i q) (hi : 0 < i)
    (hlast : q.trajectory.last? = some last) (hend : finish - last.time ≤ endTolerance k) :
    finish ≤ last.time := by
  obtain ⟨j, rfl⟩ : ∃ j, i = j + 1 := ⟨i - 1, by omega⟩
  obtain ⟨before, -, hnext⟩ := Reaches.succ.mp h
  cases passage_iff.mpr hnext with
  | onward hhere hearly hstep hsample hverdict =>
    obtain rfl := Option.some.inj (Trajectory.last?_push.symm.trans hlast)
    subst hsample
    exact le_nextTime hend

/-- What is known where an integration is complete. -/
theorem complete_cases {budget : ℕ} {report : Report ℝ σ} {c : Completion ℝ}
    (h : p.integrate observer memory finish k budget = some report)
    (houtcome : report.outcome = .ok c) (hcomplete : c.ending = .complete) :
    ∃ n last, Uniform n report.trajectory ∧ report.trajectory.last? = some last ∧
      last.time = c.time ∧ finish - c.time ≤ endTolerance k ∧
      (0 < c.steps → finish ≤ c.time) ∧ (c.steps = 0 → report.trajectory = p.trajectory) := by
  cases integrate_eq_some.mp h with
  | refused hready => exact nomatch houtcome
  | @last f scheme i q _ hready hi hreach hlast =>
    obtain ⟨start, hstart⟩ := exists_last_of_ready hready
    have huniform := hreach.uniform hready hstart
    cases passage_iff.mpr hlast with
    | empty hnone => exact nomatch houtcome
    | @failure last e hsome hend hstep =>
      cases e <;> exact nomatch houtcome
    | stopped hsome hend hstep hsample hverdict =>
      cases houtcome
      exact nomatch hcomplete
    | reached hsome hend =>
      cases houtcome
      refine ⟨_, _, huniform, hsome, rfl, hend,
        fun hpos => le_of_reached hreach hpos hsome hend, ?_⟩
      rintro rfl
      rw [Reaches.zero.mp hreach]
      rfl

/-- **The time of a complete integration can be asked for if anything was recorded, or if it is
not after the last sample.** Otherwise the samples are the old ones, no more than what counts as
reached is missing, and the query reports that the time is outside of the span. -/
theorem integrate_query {budget : ℕ} {report : Report ℝ σ} {c : Completion ℝ}
    {first : Sample ℝ} (h : p.integrate observer memory finish k budget = some report)
    (houtcome : report.outcome = .ok c) (hcomplete : c.ending = .complete)
    (hfirst : report.trajectory.first? = some first) (hstart : first.time ≤ finish) :
    (0 < c.steps ∨ finish ≤ c.time → ∃ state, (p.after report).stateAt finish = .ok state) ∧
      (¬(0 < c.steps ∨ finish ≤ c.time) → report.trajectory = p.trajectory ∧
        finish - c.time ≤ 1e-6 * k ∧ (p.after report).stateAt finish =
          .error (.error (.trajectory (.outOfSpan finish first.time c.time)))) := by
  obtain ⟨n, last, huniform, hlast, htime, hend, hsteps, hnone⟩ :=
    complete_cases h houtcome hcomplete
  constructor
  · intro hreached
    have hhigh : finish ≤ last.time := by
      rw [htime]
      exact hreached.elim hsteps id
    obtain ⟨state, hstate, -⟩ :=
      exists_stateAt huniform hfirst hlast hstart hhigh (not_lt.mpr hhigh)
    exact ⟨state, mapError_eq_ok.mpr hstate⟩
  · intro hreached
    rw [not_or, Nat.pos_iff_ne_zero, not_not] at hreached
    refine ⟨hnone hreached.1, endTolerance_real k ▸ hend, ?_⟩
    have hafter : ¬finish ≤ last.time := by
      rw [htime]
      exact hreached.2
    have hquery := stateAt_eq_outOfSpan hfirst hlast fun hspan => hafter hspan.2
    rw [htime] at hquery
    exact mapError_eq_error.mpr ⟨_, hquery, rfl⟩

/-- After one step of a half the decay can be asked for its state. -/
theorem integrate_query_decay :
    ∃ report : Report ℝ Unit, (decay : Problem ℝ).integrate .silent () (1 / 2) (1 / 2) 2 =
        some report ∧ report.outcome = .ok ⟨.complete, 1, 1 / 2⟩ ∧
      ∃ state, ((decay : Problem ℝ).after report).stateAt (1 / 2) = .ok state := by
  have hclose : |(1 / 2 : ℝ) - 1 / 2| ≤ endTolerance (1 / 2) := by norm_num [endTolerance_real]
  obtain ⟨report, hreport, houtcome, hsamples⟩ := decay_complete (by norm_num) hclose
  have hfirst : report.trajectory.first? = some ⟨[1], 0⟩ := by
    rw [Trajectory.first?, ← Array.getElem?_toList, hsamples]
    rfl
  have hquery := integrate_query hreport houtcome rfl hfirst (by norm_num)
  exact ⟨report, hreport, houtcome, hquery.1 (.inl one_pos)⟩

/-- If the time counts as reached at the start, the decay is complete without a step. -/
theorem decay_idle (finish : ℝ) (hk : 0 < k) (hclose : finish ≤ endTolerance k) :
    ∃ report : Report ℝ Unit, (decay : Problem ℝ).integrate .silent () finish k 1 = some report ∧
      report.outcome = .ok ⟨.complete, 0, 0⟩ ∧
      report.trajectory = (decay : Problem ℝ).trajectory := by
  have hlast : (decay : Problem ℝ).trajectory.last? = some ⟨[1], 0⟩ := by
    simp [decay, Trajectory.last?]
  have hend : finish - 0 ≤ endTolerance k := by rwa [sub_zero]
  have hreached : Passage (fun u _ => .ok u.neg) (.multistep (Multistep.ofPreset .forwardEuler))
      (decay : Problem ℝ).minimiser Observer.silent finish k 0
      ((decay : Problem ℝ).start (.multistep (Multistep.ofPreset .forwardEuler)) () finish k) _ :=
    .reached hlast hend
  exact ⟨_, integrate_eq_some.mpr (.last (decay_ready hk) one_pos (Reaches.zero.mpr rfl)
    (passage_iff.mp hreached)), rfl, rfl⟩

/-- **A time that counts as reached need not be recorded**: half a millionth of the unit is no
more than a millionth of a step of one, so the decay is complete there, but its only sample is at
zero. -/
theorem decay_outOfSpan :
    ∃ report : Report ℝ Unit, (decay : Problem ℝ).integrate .silent () 5e-7 1 1 = some report ∧
      report.outcome = .ok ⟨.complete, 0, 0⟩ ∧
      report.trajectory.samples.toList.Pairwise (·.time < ·.time) ∧
      (∃ first, report.trajectory.first? = some first ∧ first.time ≤ 5e-7) ∧
      ¬∃ state, ((decay : Problem ℝ).after report).stateAt 5e-7 = .ok state := by
  obtain ⟨report, hreport, houtcome, htrajectory⟩ :=
    decay_idle 5e-7 zero_lt_one (by norm_num [endTolerance_real])
  have hfirst : (decay : Problem ℝ).trajectory.first? = some ⟨[1], 0⟩ := by
    simp [decay, Trajectory.first?]
  have hlast : (decay : Problem ℝ).trajectory.last? = some ⟨[1], 0⟩ := by
    simp [decay, Trajectory.last?]
  refine ⟨report, hreport, houtcome, ?_, ⟨⟨[1], 0⟩, ?_, by norm_num⟩, ?_⟩
  · rw [htrajectory]
    exact List.pairwise_singleton _ _
  · rw [htrajectory, hfirst]
  · have hafter : ¬(5e-7 : ℝ) ≤ (⟨[1], 0⟩ : Sample ℝ).time := by norm_num
    have hquery := stateAt_eq_outOfSpan hfirst hlast fun hspan => hafter hspan.2
    rintro ⟨state, hstate⟩
    rw [Problem.stateAt, Problem.after, Problem.withTrajectory, htrajectory, hquery] at hstate
    cases hstate

end Run

end Stepwise.Ode
