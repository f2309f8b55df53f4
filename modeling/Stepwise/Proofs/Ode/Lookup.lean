import Mathlib.Analysis.Convex.Basic
import Mathlib.Tactic.FieldSimp
import Mathlib.Tactic.Linarith
import Stepwise.Proofs.Ode.Queries

/-!
# The state between samples

A query looks up the first sample that is not earlier than its time. Halving does not look at all
samples, but if those that are earlier come first it does not have to: the boundary between the two
kinds stays among the places that are left (`Stepwise.Ode.Trajectory.halve_between`), so the place
that is found is the boundary (`Stepwise.Ode.Trajectory.firstNot_eq`).

If the times increase, the earlier samples do come first. Then a recorded time leads to its own
sample, and a time between those of two neighbours leads to the later one, from which the state is
read off the straight line between the two. In exact arithmetic that line is the one through both
states, and the weight of each is the distance from the other
(`Stepwise.Ode.interpolate_ofFn`). So the answers are those of the piecewise linear function through
the samples, which is `Stepwise.Ode.Interpolant`.
-/

namespace Stepwise.Ode

/-! ### Places -/

namespace Trajectory

/-- **Halving arrives next to the boundary** that is among its places: at the last place before it,
or at the first after it if there is none before. -/
theorem halve_between {before : Nat → Bool} {boundary base count : Nat} (hcount : 0 < count)
    (hbefore : ∀ i < base + count, before i = true ↔ i < boundary) (hlow : base ≤ boundary)
    (hhigh : boundary ≤ base + count) :
    halve before base count ≤ boundary ∧ boundary ≤ halve before base count + 1 := by
  induction count using Nat.strong_induction_on generalizing base with
  | h count ih =>
    rw [halve]
    split_ifs with hone
    · exact ⟨hlow, by omega⟩
    dsimp only
    have hmiddle := hbefore (base + count / 2) (by omega)
    split
    · rename_i hearly
      have hlt := hmiddle.mp hearly
      exact ih (count - count / 2) (by omega) (by omega) (fun i hi => hbefore i (by omega)) hlt.le
        (by omega)
    · rename_i hlate
      have hge : ¬base + count / 2 < boundary := fun hlt => hlate (hmiddle.mpr hlt)
      exact ih (count - count / 2) (by omega) (by omega) (fun i hi => hbefore i (by omega)) hlow
        (by omega)

/-- **The place found is the boundary.** -/
theorem firstNot_eq {before : Nat → Bool} {boundary count : Nat} (hle : boundary ≤ count)
    (hbefore : ∀ i < count, before i = true ↔ i < boundary) : firstNot before count = boundary := by
  rw [firstNot]
  split_ifs with hzero
  · omega
  dsimp only
  have hcount : 0 < count := Nat.pos_of_ne_zero hzero
  have hplaces : ∀ i < 0 + count, before i = true ↔ i < boundary := by simpa using hbefore
  obtain ⟨hlow, hhigh⟩ := halve_between hcount hplaces (Nat.zero_le _) (by omega)
  have hfound := hbefore _ ((halve_lt before 0 count hcount).trans_eq (Nat.zero_add count))
  split
  · rename_i hearly
    have hlt := hfound.mp hearly
    omega
  · rename_i hlate
    have hge : ¬halve before 0 count < boundary := fun hlt => hlate (hfound.mpr hlt)
    omega

end Trajectory

/-! ### Increasing times -/

/-- The times of the samples increase strictly. -/
def Trajectory.Increasing (h : Trajectory ℝ) : Prop :=
  h.samples.toList.Pairwise (·.time < ·.time)

section Places

variable {h : Trajectory ℝ} {i j : ℕ} {l r sample : Sample ℝ} {time : ℝ}

theorem Trajectory.Increasing.time_lt (hh : h.Increasing) (hl : h.samples[i]? = some l)
    (hr : h.samples[j]? = some r) (hij : i < j) : l.time < r.time := by
  rw [← Array.getElem?_toList, List.getElem?_eq_some_iff] at hl hr
  obtain ⟨hi, rfl⟩ := hl
  obtain ⟨hj, rfl⟩ := hr
  exact List.pairwise_iff_getElem.mp hh i j hi hj hij

theorem Trajectory.Increasing.time_le (hh : h.Increasing) (hl : h.samples[i]? = some l)
    (hr : h.samples[j]? = some r) (hij : i ≤ j) : l.time ≤ r.time := by
  rcases hij.lt_or_eq with hlt | rfl
  · exact (hh.time_lt hl hr hlt).le
  · rw [Option.some.inj (hl.symm.trans hr)]

/-- A place is found if its sample is not earlier than the time, and the one before it is. -/
theorem Trajectory.Increasing.firstNot_eq (hh : h.Increasing) (hr : h.samples[i]? = some r)
    (hlate : time ≤ r.time)
    (hearly : ∀ j, i = j + 1 → ∃ l, h.samples[j]? = some l ∧ l.time < time) :
    Trajectory.firstNot (h.isEarlier time) h.size = i := by
  obtain ⟨hi, -⟩ := Array.getElem?_eq_some_iff.mp hr
  refine Trajectory.firstNot_eq hi.le fun j hj => ?_
  have hhere : h.samples[j]? = some h.samples[j] := Array.getElem?_eq_getElem hj
  simp only [Trajectory.isEarlier, hhere, decide_eq_true_eq]
  constructor
  · intro hlt
    by_contra hge
    exact absurd (hlate.trans (hh.time_le hr hhere (not_lt.mp hge))) (not_le.mpr hlt)
  · intro hlt
    obtain ⟨l, hl, htime⟩ := hearly (i - 1) (by omega)
    exact (hh.time_le hhere hl (by omega)).trans_lt htime

/-! ### Recorded times -/

/-- A sample of increasing times is between the first and the last one. -/
theorem Trajectory.Increasing.span (hh : h.Increasing) (hsample : h.samples[i]? = some sample) :
    ∃ first last, h.first? = some first ∧ h.last? = some last ∧ first.time ≤ sample.time ∧
      sample.time ≤ last.time := by
  obtain ⟨hi, -⟩ := Array.getElem?_eq_some_iff.mp hsample
  have hfirst : h.first? = some h.samples[0] := Array.getElem?_eq_getElem (by omega)
  have hlast : h.samples[h.samples.size - 1]? = some h.samples[h.samples.size - 1] :=
    Array.getElem?_eq_getElem (by omega)
  exact ⟨_, _, hfirst, Array.back?_eq_getElem?.trans hlast, hh.time_le hfirst hsample (by omega),
    hh.time_le hsample hlast (by omega)⟩

/-- **A recorded time has its recorded state.** -/
theorem Trajectory.Increasing.stateAt_recorded (hh : h.Increasing)
    (hsample : h.samples[i]? = some sample) : h.stateAt sample.time = .ok sample.state := by
  obtain ⟨first, last, hfirst, hlast, hlow, hhigh⟩ := hh.span hsample
  have hplace := hh.firstNot_eq hsample le_rfl fun j hj => by
    subst hj
    obtain ⟨hi, -⟩ := Array.getElem?_eq_some_iff.mp hsample
    have hbefore : h.samples[j]? = some h.samples[j] := Array.getElem?_eq_getElem (by omega)
    exact ⟨_, hbefore, hh.time_lt hbefore hsample j.lt_succ_self⟩
  rw [stateAt_of_span hfirst hlast hlow hhigh, hplace, Trajectory.stateFrom, hsample]
  simp [Failure.ofFault]

/-! ### Times in between -/

/-- A time between those of two neighbours has a state between theirs. -/
theorem Trajectory.Increasing.stateAt_between (hh : h.Increasing) (hl : h.samples[i]? = some l)
    (hr : h.samples[i + 1]? = some r) (hlow : l.time < time) (hhigh : time < r.time) :
    h.stateAt time = Failure.ofFault (Trajectory.interpolate l r time) := by
  obtain ⟨first, _, hfirst, -, hfirstTime, -⟩ := hh.span hl
  obtain ⟨_, last, -, hlast, -, hlastTime⟩ := hh.span hr
  have hplace := hh.firstNot_eq hr hhigh.le fun j hj => by
    obtain rfl : i = j := by omega
    exact ⟨l, hl, hlow⟩
  rw [stateAt_of_span hfirst hlast (hfirstTime.trans hlow.le) (hhigh.le.trans hlastTime), hplace,
    Trajectory.stateFrom, hr]
  simp [hhigh.ne', hl]

/-- **The state in between is on the straight line** through the two states. -/
theorem interpolate_ofFn {n : ℕ} {u v : Fin n → ℝ} (hu : l.state = List.ofFn u)
    (hv : r.state = List.ofFn v) (hne : l.time < r.time) :
    Trajectory.interpolate l r time =
      .ok (List.ofFn (u + ((time - l.time) / (r.time - l.time)) • (v - u))) := by
  have hgap : r.time - l.time ≠ 0 := (sub_pos.mpr hne).ne'
  have hweight : (r.time - time) / (r.time - l.time) =
      1 - (time - l.time) / (r.time - l.time) := by
    field_simp
    ring
  rw [Trajectory.interpolate, hu, hv, Vec.scale_ofFn, Vec.scale_ofFn, Vec.add_ofFn, hweight,
    Scalar.ofNat_real, Nat.cast_one, sub_sub_cancel, sub_smul, one_smul, smul_sub, add_sub,
    sub_add_eq_add_sub]

/-- Between the first time and the last every time is recorded or between those of two
neighbours. -/
theorem recorded_or_between {first last : Sample ℝ} (hfirst : h.first? = some first)
    (hlast : h.last? = some last) (hlow : first.time ≤ time) (hhigh : time ≤ last.time) :
    (∃ (i : ℕ) (sample : Sample ℝ), h.samples[i]? = some sample ∧ sample.time = time) ∨
      ∃ (i : ℕ) (l r : Sample ℝ), h.samples[i]? = some l ∧ h.samples[i + 1]? = some r ∧
        l.time < time ∧ time < r.time := by
  classical
  have hex : ∃ (i : ℕ) (r : Sample ℝ), h.samples[i]? = some r ∧ time ≤ r.time :=
    ⟨_, last, Array.back?_eq_getElem?.symm.trans hlast, hhigh⟩
  -- The neighbours are the first sample that is not earlier, and the one before it.
  obtain ⟨r, hr, hlate⟩ := Nat.find_spec hex
  rcases hlate.eq_or_lt with heq | hlt
  · exact .inl ⟨_, r, hr, heq.symm⟩
  right
  obtain ⟨i, hi⟩ : ∃ i, Nat.find hex = i + 1 := by
    refine Nat.exists_eq_succ_of_ne_zero fun hzero => ?_
    rw [hzero] at hr
    rw [Option.some.inj (hr.symm.trans hfirst)] at hlt
    exact absurd hlow (not_le.mpr hlt)
  rw [hi] at hr
  obtain ⟨hsize, -⟩ := Array.getElem?_eq_some_iff.mp hr
  have hl : h.samples[i]? = some h.samples[i] := Array.getElem?_eq_getElem (by omega)
  refine ⟨i, _, r, hl, hr, ?_, hlt⟩
  by_contra hge
  exact Nat.find_min hex (by omega) ⟨_, hl, not_lt.mp hge⟩

/-! ### The function through the samples -/

/-- The state at a time on the lines that join the samples. -/
inductive Interpolant (h : Trajectory ℝ) (time : ℝ) : Vec ℝ → Prop
  /-- The time is that of a sample. -/
  | recorded {i : ℕ} {sample : Sample ℝ} (hsample : h.samples[i]? = some sample)
      (htime : sample.time = time) : Interpolant h time sample.state
  /-- The time is between those of two neighbours. -/
  | between {i n : ℕ} {l r : Sample ℝ} {u v : Fin n → ℝ} (hl : h.samples[i]? = some l)
      (hr : h.samples[i + 1]? = some r) (hu : l.state = List.ofFn u) (hv : r.state = List.ofFn v)
      (hlow : l.time < time) (hhigh : time < r.time) :
      Interpolant h time (List.ofFn (u + ((time - l.time) / (r.time - l.time)) • (v - u)))

variable {n : ℕ} {state : Vec ℝ}

theorem Interpolant.stateAt_eq (hh : h.Increasing) (hstate : Interpolant h time state) :
    h.stateAt time = .ok state := by
  cases hstate with
  | recorded hsample htime =>
    subst htime
    exact hh.stateAt_recorded hsample
  | between hl hr hu hv hlow hhigh =>
    rw [hh.stateAt_between hl hr hlow hhigh, interpolate_ofFn hu hv (hlow.trans hhigh)]
    rfl

/-- In the recorded span there is a state on the lines. -/
theorem exists_interpolant (huniform : Uniform n h) {first last : Sample ℝ}
    (hfirst : h.first? = some first) (hlast : h.last? = some last) (hlow : first.time ≤ time)
    (hhigh : time ≤ last.time) : ∃ state, Interpolant h time state := by
  have hstate {i : ℕ} {sample : Sample ℝ} (hi : h.samples[i]? = some sample) :
      ∃ u : Fin n → ℝ, sample.state = List.ofFn u :=
    Vec.exists_eq_ofFn (huniform sample (Array.mem_toList_iff.mpr (Array.mem_of_getElem? hi)))
  rcases recorded_or_between hfirst hlast hlow hhigh with
    ⟨i, sample, hsample, htime⟩ | ⟨i, l, r, hl, hr, hbefore, hafter⟩
  · exact ⟨_, .recorded hsample htime⟩
  · obtain ⟨u, hu⟩ := hstate hl
    obtain ⟨v, hv⟩ := hstate hr
    exact ⟨_, .between hl hr hu hv hbefore hafter⟩

theorem Trajectory.empty_or_exists_ends (h : Trajectory ℝ) :
    h.samples = #[] ∨ ∃ first last, h.first? = some first ∧ h.last? = some last := by
  rcases Nat.eq_zero_or_pos h.samples.size with hzero | hpos
  · exact .inl (Array.eq_empty_of_size_eq_zero hzero)
  · exact .inr ⟨_, _, Array.getElem?_eq_getElem hpos,
      Array.back?_eq_getElem?.trans (Array.getElem?_eq_getElem (by omega))⟩

/-- **A query has no answer if there are no samples, or if its time is outside of the span.** -/
theorem stateAt_eq_error_iff (huniform : Uniform n h) {e : Failure (TrajectoryError ℝ)} :
    h.stateAt time = .error e ↔
      (h.samples = #[] ∧ e = .error .empty) ∨
        ∃ first last, h.first? = some first ∧ h.last? = some last ∧
          (time < first.time ∨ last.time < time) ∧
          e = .error (.outOfSpan time first.time last.time) := by
  rcases h.empty_or_exists_ends with hempty | ⟨first, last, hfirst, hlast⟩
  · have hnone : h.first? = none := by simp [Trajectory.first?, hempty]
    simp [Trajectory.stateAt, hnone, hempty, eq_comm]
  · have hsome : h.samples ≠ #[] := by
      rintro hempty
      simp [Trajectory.first?, hempty] at hfirst
    simp only [hsome, false_and, false_or, hfirst, hlast, Option.some.injEq, exists_and_left,
      exists_eq_left']
    rw [← not_le, ← not_le, ← not_and_or]
    by_cases hspan : first.time ≤ time ∧ time ≤ last.time
    · obtain ⟨state, hstate, -⟩ :=
        exists_stateAt huniform hfirst hlast hspan.1 hspan.2 (not_lt.mpr hspan.2)
      simp [hstate, hspan]
    · simp [stateAt_eq_outOfSpan hfirst hlast hspan, hspan, eq_comm]

/-- **A query has a state as its answer if the state is on the lines.** -/
theorem stateAt_eq_ok_iff (hh : h.Increasing) (huniform : Uniform n h) :
    h.stateAt time = .ok state ↔ Interpolant h time state := by
  refine ⟨fun hstate => ?_, fun hstate => hstate.stateAt_eq hh⟩
  rcases h.empty_or_exists_ends with hempty | ⟨first, last, hfirst, hlast⟩
  · rw [(stateAt_eq_error_iff huniform).mpr (.inl ⟨hempty, rfl⟩)] at hstate
    exact nomatch hstate
  · by_cases hspan : first.time ≤ time ∧ time ≤ last.time
    · obtain ⟨state', hstate'⟩ := exists_interpolant huniform hfirst hlast hspan.1 hspan.2
      rwa [Except.ok.inj (hstate.symm.trans (hstate'.stateAt_eq hh))]
    · rw [stateAt_eq_outOfSpan hfirst hlast hspan] at hstate
      exact nomatch hstate

/-- From the time of a sample to that of the next the states are those of the line through both. -/
theorem Trajectory.Increasing.stateAt_segment {u v : Fin n → ℝ} (hh : h.Increasing)
    (hl : h.samples[i]? = some l) (hr : h.samples[i + 1]? = some r) (hu : l.state = List.ofFn u)
    (hv : r.state = List.ofFn v) (hlow : l.time ≤ time) (hhigh : time ≤ r.time) :
    h.stateAt time =
      .ok (List.ofFn (u + ((time - l.time) / (r.time - l.time)) • (v - u))) := by
  have hgap : r.time - l.time ≠ 0 := (sub_pos.mpr (hh.time_lt hl hr i.lt_succ_self)).ne'
  rcases hlow.eq_or_lt with rfl | hlow
  · rw [sub_self, zero_div, zero_smul, add_zero, ← hu]
    exact hh.stateAt_recorded hl
  rcases hhigh.eq_or_lt with rfl | hhigh
  · rw [div_self hgap, one_smul, add_sub_cancel, ← hv]
    exact hh.stateAt_recorded hr
  · exact (Interpolant.between hl hr hu hv hlow hhigh).stateAt_eq hh

end Places

/-- **A query is answered by the piecewise linear function through the samples**, if their times
increase and their states have one dimension: it has no answer if there are no samples or the time
is outside of their span, and otherwise the state is that of a sample, or on the line through those
of two neighbours and so, component by component, between them. -/
theorem stateAt_interpolates {h : Trajectory ℝ} {n : ℕ} (hh : h.Increasing)
    (huniform : Uniform n h) (time : ℝ) :
    (∀ e, h.stateAt time = .error e ↔
      (h.samples = #[] ∧ e = .error .empty) ∨
        ∃ first last, h.first? = some first ∧ h.last? = some last ∧
          (time < first.time ∨ last.time < time) ∧
          e = .error (.outOfSpan time first.time last.time)) ∧
    (∀ state, h.stateAt time = .ok state ↔ Interpolant h time state) ∧
    ∀ (i : ℕ) (l r : Sample ℝ) (u v : Fin n → ℝ), h.samples[i]? = some l →
      h.samples[i + 1]? = some r → l.state = List.ofFn u → r.state = List.ofFn v →
      l.time ≤ time → time ≤ r.time →
      ∃ w : Fin n → ℝ, h.stateAt time = .ok (List.ofFn w) ∧ ∀ j, w j ∈ Set.uIcc (u j) (v j) := by
  refine ⟨fun e => stateAt_eq_error_iff huniform, fun state => stateAt_eq_ok_iff hh huniform, ?_⟩
  intro i l r u v hl hr hu hv hlow hhigh
  refine ⟨_, hh.stateAt_segment hl hr hu hv hlow hhigh, fun j => ?_⟩
  have hweight : (time - l.time) / (r.time - l.time) ∈ Set.Icc (0 : ℝ) 1 :=
    ⟨div_nonneg (by linarith) (by linarith), div_le_one_of_le₀ (by linarith) (by linarith)⟩
  exact (convex_uIcc (u j) (v j)).add_smul_sub_mem Set.left_mem_uIcc Set.right_mem_uIcc hweight

/-- Three samples, the second above the others. -/
noncomputable def peak : Trajectory ℝ := ⟨#[⟨[0], -1⟩, ⟨[1], 0⟩, ⟨[0], 1⟩]⟩

/-- A quarter of the way through the peak the state is half-way up. -/
theorem stateAt_interpolates_peak :
    peak.Increasing ∧ Uniform 1 peak ∧ peak.stateAt (-1 / 2) = .ok [1 / 2] := by
  have hh : peak.Increasing := by
    norm_num [Trajectory.Increasing, peak]
  have huniform : Uniform 1 peak := by
    simp [Uniform, peak]
  refine ⟨hh, huniform, ((stateAt_interpolates hh huniform (-1 / 2)).2.1 _).mpr ?_⟩
  have hmiddle : [(1 / 2 : ℝ)] =
      List.ofFn (![0] + (((-1 / 2 : ℝ) - -1) / (0 - -1)) • (![1] - ![0])) := by
    norm_num
  have hl : peak.samples[0]? = some ⟨[0], -1⟩ := rfl
  have hr : peak.samples[1]? = some ⟨[1], 0⟩ := rfl
  rw [hmiddle]
  exact .between hl hr rfl rfl (by norm_num) (by norm_num)

end Stepwise.Ode
