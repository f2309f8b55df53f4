import Mathlib.Data.List.Chain
import Mathlib.Tactic.Linarith
import Mathlib.Tactic.NormNum
import Mathlib.Tactic.Positivity
import Stepwise.Proofs.Ode.Grid
import Stepwise.Proofs.Ode.Steps

/-!
# Whether an integration can be continued

An integration asks for samples whose gaps match the step, and the samples that it
appends have such gaps: in exact arithmetic all of them are the step itself, but for the
last one, which is off by what is missing of the time to be reached. Whether the samples
can be continued with the same step depends on two tolerances. A sample is moved by at
most a millionth of the step, and a gap is accepted if it is off by at most a fixed
number, the root of the single-precision gap. As long as the first does not exceed the
second, an integration leaves the samples evenly spaced, however it ends
(`Stepwise.Ode.integrate_spacing`). That holds for steps up to about 345. For longer
steps an integration can leave samples that the next one refuses
(`Stepwise.Ode.integrate_uneven`).
-/

namespace Stepwise.Ode

/-! ### Even spacing -/

section Generic

variable {R : Type} [Scalar R]

open Scalar Trajectory

/-- The gap between two samples matches the step. -/
def Matches (k : R) (before after : Sample R) : Prop :=
  ¬spacingTolerance < abs (after.time - before.time - k)

theorem requireGaps_eq_ok_iff {dimension : Nat} {k : R} {index : Nat} {previous : Sample R}
    {rest : List (Sample R)} :
    requireGaps dimension k index previous rest = .ok () ↔
      (∀ sample ∈ rest, sample.state.length = dimension) ∧
        (previous :: rest).IsChain (Matches k) := by
  induction rest generalizing index previous with
  | nil => simp [requireGaps]
  | cons sample rest ih =>
    rw [requireGaps]
    split_ifs with hlength hgap
    · simp [hlength]
    · simp [Matches, hgap]
    · rw [ih, List.isChain_cons_cons, List.forall_mem_cons]
      have hmatch : Matches k previous sample := hgap
      have hdimension : sample.state.length = dimension := not_not.mp hlength
      tauto

/-- **Samples are evenly spaced** if the step makes sense, there is a first one, the others have
its dimension, and neighbours have the right distance. -/
theorem requireSpacing_eq_ok_iff {h : Trajectory R} {k : R} :
    h.requireSpacing k = .ok () ↔ (ofNat 0 < k ∧ isFinite k = true) ∧
      ∃ first rest, h.samples.toList = first :: rest ∧
        (∀ sample ∈ rest, sample.state.length = first.state.length) ∧
        (first :: rest).IsChain (Matches k) := by
  rw [requireSpacing]
  split_ifs with hstep
  · have hk : ofNat 0 < k ∧ isFinite k = true := by simpa using hstep
    cases hlist : h.samples.toList with
    | nil => simp
    | cons first rest =>
      rw [requireGaps_eq_ok_iff]
      constructor
      · exact fun hrest => ⟨hk, first, rest, rfl, hrest⟩
      · rintro ⟨-, first', rest', heq, hrest⟩
        cases heq
        exact hrest
  · refine iff_of_false (by simp) fun hc => hstep ?_
    simpa using hc.1

/-- **One more sample at the right distance keeps samples evenly spaced.** -/
theorem requireSpacing_push {h : Trajectory R} {k : R} {last sample : Sample R}
    (hh : h.requireSpacing k = .ok ()) (hlast : h.last? = some last)
    (hlength : sample.state.length = last.state.length) (hgap : Matches k last sample) :
    (h.push sample).requireSpacing k = .ok () := by
  obtain ⟨hk, first, rest, hlist, hdimension, hchain⟩ := requireSpacing_eq_ok_iff.mp hh
  rw [last?_eq_getLast?, hlist] at hlast
  have hlastLength : last.state.length = first.state.length := by
    rcases List.mem_cons.mp (List.mem_of_getLast? hlast) with rfl | hmem
    · rfl
    · exact hdimension last hmem
  refine requireSpacing_eq_ok_iff.mpr ⟨hk, first, rest ++ [sample], by simp [hlist], ?_, ?_⟩
  · simp only [List.mem_append, List.mem_singleton]
    rintro s (hs | rfl)
    · exact hdimension s hs
    · rw [hlength, hlastLength]
  · rw [← List.cons_append, List.isChain_append]
    refine ⟨hchain, by simp, fun a ha b hb => ?_⟩
    cases ha.symm.trans hlast
    cases hb
    exact hgap

end Generic

/-! ### The samples of an integration -/

section Run

variable {σ : Type} {p : Problem ℝ} {f : Field ℝ} {scheme : Scheme ℝ}
  {observer : Observer (Arrival ℝ) σ} {memory : σ} {finish k : ℝ}

/-- **A sample is moved by no more than counts as reached.** -/
theorem abs_nextTime_le (hk : 0 ≤ k) (time : ℝ) :
    |nextTime finish k time - time - k| ≤ endTolerance k := by
  rw [nextTime, Scalar.abs_real]
  split_ifs with hclose
  · rwa [sub_sub]
  · rw [endTolerance_real, add_sub_cancel_left, sub_self, abs_zero]
    positivity

theorem spacingTolerance_real : (Trajectory.spacingTolerance : ℝ) = √(1 / 2 ^ 23) := by
  norm_num [Trajectory.spacingTolerance, Scalar.singleGap]

/-- A gap of exactly the step is right, for steps of any size. -/
theorem matches_of_gap_eq {before after : Sample ℝ} (hgap : after.time - before.time = k) :
    Matches k before after := by
  rw [Matches, Scalar.abs_real, hgap, sub_self, abs_zero, spacingTolerance_real]
  exact not_lt.mpr (Real.sqrt_nonneg _)

/-- The next sample is at the right distance if what counts as reached is no more than what
counts as even. -/
theorem matches_nextTime (hk : 0 ≤ k) (htol : endTolerance k ≤ (Trajectory.spacingTolerance : ℝ))
    {last : Sample ℝ} {state : Vec ℝ} : Matches k last ⟨state, nextTime finish k last.time⟩ :=
  not_lt.mpr ((abs_nextTime_le hk last.time).trans htol)

/-- **A step keeps the samples evenly spaced.** -/
theorem requireSpacing_step {h : Trajectory ℝ} (hh : h.requireSpacing k = .ok ())
    (htol : endTolerance k ≤ (Trajectory.spacingTolerance : ℝ)) {last : Sample ℝ} {state : Vec ℝ}
    (hlast : h.last? = some last)
    (hstep : (scheme.step f h last k p.minimiser).outcome = .ok state) :
    (h.push ⟨state, nextTime finish k last.time⟩).requireSpacing k = .ok () := by
  have hk : 0 < k := by simpa using pos_of_requireSpacing hh
  exact requireSpacing_push hh hlast (length_of_step hstep) (matches_nextTime hk.le htol)

/-- **All steps keep the samples evenly spaced.** -/
theorem Reaches.requireSpacing (hh : p.trajectory.requireSpacing k = .ok ())
    (htol : endTolerance k ≤ (Trajectory.spacingTolerance : ℝ)) {n : ℕ} {q : Progress ℝ σ}
    (h : Reaches p f scheme observer memory finish k n q) :
    q.trajectory.requireSpacing k = .ok () := by
  induction n generalizing q with
  | zero =>
    rw [Reaches.zero.mp h]
    exact hh
  | succ n ih =>
    obtain ⟨before, hbefore, hnext⟩ := Reaches.succ.mp h
    cases passage_iff.mpr hnext with
    | onward hlast hend hstep hsample hverdict =>
      subst hsample
      exact requireSpacing_step (ih hbefore) htol hlast hstep

/-! ### Steps of the decay that are moved -/

/-- The first step of the decay. -/
theorem decay_step (k : ℝ) :
    ((Scheme.multistep (Multistep.ofPreset .forwardEuler)).step (fun u _ => .ok u.neg)
      (decay : Problem ℝ).trajectory ⟨[1], 0⟩ k decay.minimiser).outcome = .ok [1 - k] := by
  simp [Scheme.step, Multistep.step, Multistep.known, Multistep.ofPreset, Multistep.addStates,
    Multistep.addSlopes, Multistep.isExplicit, Multistep.leading, Multistep.depth,
    Trajectory.recent, Trajectory.size, decay, Vec.zero, Vec.scale, Vec.neg, Vec.add, Vec.combine,
    Scalar.singleGap, Step.explicit, sub_eq_add_neg]

/-- The integration of the decay to a time that its first step nearly meets records one sample,
at that time. -/
theorem decay_complete (hk : 0 < k) (hclose : |finish - k| ≤ endTolerance k) :
    ∃ report : Report ℝ Unit, (decay : Problem ℝ).integrate .silent () finish k 2 = some report ∧
      report.outcome = .ok ⟨.complete, 1, finish⟩ ∧
      report.trajectory.samples.toList = [⟨[1], 0⟩, ⟨[1 - k], finish⟩] := by
  have hlast : (decay : Problem ℝ).trajectory.last? = some ⟨[1], 0⟩ := by
    simp [decay, Trajectory.last?]
  have htime : nextTime finish k 0 = finish := by
    rw [nextTime, zero_add, Scalar.abs_real, if_pos hclose]
  have hearly : ¬finish - 0 ≤ endTolerance k := by
    rw [endTolerance_real] at hclose ⊢
    have hlow := (abs_le.mp hclose).1
    intro hle
    linarith
  have honward : Passage (fun u _ => .ok u.neg) (.multistep (Multistep.ofPreset .forwardEuler))
      (decay : Problem ℝ).minimiser Observer.silent finish k 0
      ((decay : Problem ℝ).start (.multistep (Multistep.ofPreset .forwardEuler)) () finish k) _ :=
    .onward hlast hearly (decay_step k) rfl rfl
  obtain ⟨q, hreach, hq⟩ : ∃ q : Progress ℝ Unit, Reaches decay (fun u _ => .ok u.neg)
      (.multistep (Multistep.ofPreset .forwardEuler)) .silent () finish k 1 q ∧
      q.trajectory = (decay : Problem ℝ).trajectory.push
        ⟨[1 - k], nextTime finish k 0⟩ :=
    ⟨_, Reaches.succ.mpr ⟨_, Reaches.zero.mpr rfl, passage_iff.mp honward⟩, rfl⟩
  have hlast' : q.trajectory.last? = some ⟨[1 - k], finish⟩ := by
    rw [hq, Trajectory.last?_push, htime]
  have hend : finish - finish ≤ endTolerance k := by
    rw [sub_self, endTolerance_real]
    positivity
  have hreached : Passage (fun u _ => .ok u.neg) (.multistep (Multistep.ofPreset .forwardEuler))
      (decay : Problem ℝ).minimiser Observer.silent finish k 1 q _ := .reached hlast' hend
  refine ⟨_, integrate_eq_some.mpr (.last (decay_ready hk) (by norm_num) hreach
    (passage_iff.mp hreached)), rfl, ?_⟩
  simp [Progress.report, hq, htime, decay]

theorem decay_integrate (hk : 0 < k) (hclose : |finish - k| ≤ endTolerance k) :
    ∃ report : Report ℝ Unit, (decay : Problem ℝ).integrate .silent () finish k 2 = some report ∧
      report.trajectory.samples.toList = [⟨[1], 0⟩, ⟨[1 - k], finish⟩] := by
  obtain ⟨report, hreport, -, hsamples⟩ := decay_complete hk hclose
  exact ⟨report, hreport, hsamples⟩

theorem decay_requireSpacing (hk : 0 < k) :
    (decay : Problem ℝ).trajectory.requireSpacing k = .ok () :=
  requireSpacing_of_ready (decay_ready hk)

/-! ### The whole integration -/

/-- **An integration leaves samples that the next one with the same step accepts**, however it
ends, if what counts as reached is no more than what counts as even. -/
theorem integrate_spacing (hh : p.trajectory.requireSpacing k = .ok ())
    (htol : endTolerance k ≤ (Trajectory.spacingTolerance : ℝ)) {budget : ℕ} {report : Report ℝ σ}
    (h : p.integrate observer memory finish k budget = some report) :
    (p.after report).trajectory.requireSpacing k = .ok () := by
  change report.trajectory.requireSpacing k = .ok ()
  cases integrate_eq_some.mp h with
  | refused hready => exact hh
  | last hready hn hreach hlast =>
    have hspaced := hreach.requireSpacing hh htol
    cases passage_iff.mpr hlast with
    | empty hnone => exact hspaced
    | reached hsome hend => exact hspaced
    | @failure last e hsome hend hstep =>
      cases e with
      | fault fault => exact hspaced
      | error cause => exact hspaced
    | stopped hsome hend hstep hsample hverdict =>
      subst hsample
      exact requireSpacing_step hspaced htol hsome hstep

/-- After one step of a half the decay can be continued by such steps. -/
theorem integrate_spacing_decay :
    ∃ report : Report ℝ Unit,
      (decay : Problem ℝ).integrate .silent () (1 / 2) (1 / 2) 2 = some report ∧
        ((decay : Problem ℝ).after report).trajectory.requireSpacing (1 / 2) = .ok () := by
  have htol : endTolerance (1 / 2 : ℝ) ≤ Trajectory.spacingTolerance := by
    rw [endTolerance_real, spacingTolerance_real]
    exact Real.le_sqrt_of_sq_le (by norm_num)
  have hclose : |(1 / 2 : ℝ) - 1 / 2| ≤ endTolerance (1 / 2) := by norm_num [endTolerance_real]
  obtain ⟨report, hreport, -⟩ := decay_integrate (by norm_num) hclose
  exact ⟨report, hreport, integrate_spacing (decay_requireSpacing (by norm_num)) htol hreport⟩

/-- **A long step can leave samples that are refused**: a step of 1024 is moved by the 1024th part
of the unit, which is less than a millionth of the step, but more than counts as even. -/
theorem integrate_uneven :
    (decay : Problem ℝ).trajectory.requireSpacing 1024 = .ok () ∧
      (∀ f, (decay : Problem ℝ).field? = some f →
        ∀ u t v, f u t = .ok v → v.length = u.length) ∧
      ∃ report : Report ℝ Unit,
        (decay : Problem ℝ).integrate .silent () (1024 + 1 / 1024) 1024 2 = some report ∧
          ((decay : Problem ℝ).after report).trajectory.requireSpacing 1024 ≠ .ok () := by
  refine ⟨decay_requireSpacing (by norm_num), ?_, ?_⟩
  · rintro f hf u t v hv
    cases hf
    cases hv
    exact List.length_map _
  · have hclose : |(1024 + 1 / 1024 : ℝ) - 1024| ≤ endTolerance 1024 := by
      norm_num [endTolerance_real]
    obtain ⟨report, hreport, hsamples⟩ := decay_integrate (by norm_num) hclose
    refine ⟨report, hreport, fun hspacing => ?_⟩
    obtain ⟨-, first, rest, hlist, -, hchain⟩ := requireSpacing_eq_ok_iff.mp hspacing
    obtain ⟨rfl, rfl⟩ := List.cons.inj (hlist.symm.trans hsamples)
    have hmatch := (List.isChain_cons_cons.mp hchain).1
    refine hmatch ?_
    rw [spacingTolerance_real, Scalar.abs_real, Real.sqrt_lt' (by norm_num)]
    norm_num

end Run

end Stepwise.Ode
