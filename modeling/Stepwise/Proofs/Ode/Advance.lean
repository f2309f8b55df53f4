import Mathlib.Tactic.NormNum
import Stepwise.Proofs.Doubles.Arithmetic
import Stepwise.Proofs.Ode.Explicit

/-!
# Whether an integration ends

Over doubles a step can be lost in rounding, and an integration whose step is lost makes the
same step over and over again. That is the only way in which an integration by explicit steps
does not end (`Stepwise.Ode.integrate_returns_iff`). A step goes ahead or stays where it is,
it never goes back (`Stepwise.Ode.lt_nextTime_or_eq`), and there are only so many doubles to go
ahead to.

No step is lost as long as the times are finite and less than `2⁵³ - 1` times the step. Beyond
that a step may be too short for the time it starts from, and from an undefined or an infinite
time no step leads anywhere. Neither is excluded by what an integration asks of its samples and
its step, so there are integrations that do not end (`Stepwise.Ode.integrate_never_returns`).
-/

namespace Stepwise.Ode

open Double

variable {finish k time : Float}

/-! ### The step and the tolerance -/

/-- A step that an integration accepts is finite and positive. -/
theorem step_pos_of_ready {p : Problem Float} {setup : Field Float × Scheme Float}
    (hready : p.ready k = .ok setup) : k.isFinite ∧ 0 < units k := by
  obtain ⟨f, scheme⟩ := setup
  obtain ⟨⟨hpos, hfinite⟩, -⟩ := requireSpacing_eq_ok_iff.mp (requireSpacing_of_ready hready)
  have hzero : units (Scalar.ofNat 0 : Float) = 0 := by decide +kernel
  have hlt := (lt_iff.mp hpos).2.2
  rw [hzero] at hlt
  exact ⟨hfinite, hlt⟩

/-- The tolerance is not negative. -/
theorem endTolerance_nonneg (hk : k.isFinite) (hpos : 0 < units k) :
    0 ≤ units (endTolerance k) ∧ ¬ (endTolerance k).isNaN := by
  have hfinite : (Scalar.ratio 1 1000000 : Float).isFinite := by decide +kernel
  have hmillionth : 0 < units (Scalar.ratio 1 1000000 : Float) := by decide +kernel
  exact units_mul_nonneg hfinite hk hmillionth hpos

/-! ### One step ahead -/

/-- If the step is not lost in rounding, the next sample is later. -/
theorem lt_nextTime_of_lt (hk : k.isFinite) (hpos : 0 < units k)
    (hend : ¬finish - time ≤ endTolerance k) (hlt : time < time + k) :
    time < nextTime finish k time := by
  obtain ⟨htol, hnan⟩ := endTolerance_nonneg hk hpos
  rw [nextTime]
  split_ifs with hclose
  · -- The sample is moved to `finish`, which is later than `time` since it is not reached.
    have hclose' : (finish - (time + k)).abs ≤ endTolerance k := hclose
    have hfinish : ¬ finish.isNaN := by
      intro hundefined
      rw [le_iff, isNaN_abs, Double.sub_eq_add_neg] at hclose'
      exact hclose'.1 (isNaN_add (.inl hundefined))
    have htime : ¬ time.isNaN := (lt_iff.mp hlt).1
    have hfinite : time.isFinite := by
      by_contra hinfinite
      rw [add_eq_self hinfinite htime hk] at hlt
      exact lt_irrefl time hlt
    exact lt_of_not_sub_le htime hfinish (.inl hfinite) hnan htol hend
  · exact hlt

/-- **A step goes ahead or stays where it is.** -/
theorem lt_nextTime_or_eq (hk : k.isFinite) (hpos : 0 < units k)
    (hend : ¬finish - time ≤ endTolerance k) :
    time < nextTime finish k time ∨ nextTime finish k time = time := by
  rcases lt_add_or_add_eq time hk hpos with hlt | heq
  · exact .inl (lt_nextTime_of_lt hk hpos hend hlt)
  · right
    rw [nextTime]
    split_ifs with hclose
    · rw [heq] at hclose
      exact absurd (le_of_abs_le hclose) hend
    · exact heq

/-! ### All steps ahead -/

/-- A step that stays where it is is made over and over again. -/
theorem clock_eq_of_nextTime_eq {n : ℕ}
    (h : nextTime finish k (clock finish k time n) = clock finish k time n) (m : ℕ) :
    clock finish k time (n + m) = clock finish k time n := by
  induction m with
  | zero => rfl
  | succ m ih => rw [← Nat.add_assoc, clock_succ, ih, h]

/-- **The time is reached if and only if every step up to then goes ahead.** -/
theorem exists_reached_iff (hk : k.isFinite) (hpos : 0 < units k) :
    (∃ n, finish - clock finish k time n ≤ endTolerance k) ↔
      ∀ n, (∀ i ≤ n, ¬finish - clock finish k time i ≤ endTolerance k) →
        clock finish k time n < clock finish k time (n + 1) := by
  constructor
  · rintro ⟨m, hm⟩ n hend
    rw [clock_succ]
    refine (lt_nextTime_or_eq hk hpos (hend n le_rfl)).resolve_right fun hstay => ?_
    obtain ⟨j, rfl⟩ : ∃ j, m = n + j := by
      by_contra! hbefore
      refine hend m ?_ hm
      by_contra! hlt
      exact hbefore (m - n) (by omega)
    rw [clock_eq_of_nextTime_eq hstay] at hm
    exact hend n le_rfl hm
  · intro hahead
    by_contra! hnever
    obtain ⟨n, hn⟩ := exists_not_lt (clock finish k time)
    exact hn (hahead n fun i _ => hnever i)

/-- As long as the time is not reached, the times are between the first one and the last. -/
theorem clock_between (hk : k.isFinite) (hpos : 0 < units k) (hfinish : finish.isFinite)
    (htime : time.isFinite) {n : ℕ}
    (hend : ∀ i ≤ n, ¬finish - clock finish k time i ≤ endTolerance k) :
    units time ≤ units (clock finish k time n) ∧ clock finish k time n < finish := by
  obtain ⟨htol, hnan⟩ := endTolerance_nonneg hk hpos
  have hfinish' := not_isNaN_of_isFinite hfinish
  induction n with
  | zero =>
    exact ⟨le_rfl, lt_of_not_sub_le (not_isNaN_of_isFinite htime) hfinish' (.inl htime) hnan htol
      (hend 0 le_rfl)⟩
  | succ n ih =>
    obtain ⟨hle, hlt⟩ := ih fun i hi => hend i (by omega)
    rw [clock_succ]
    have hend' := hend (n + 1) le_rfl
    rw [clock_succ] at hend'
    rcases lt_nextTime_or_eq hk hpos (hend n (by omega)) with hahead | hstay
    · have hahead' := lt_iff.mp hahead
      exact ⟨hle.trans hahead'.2.2.le,
        lt_of_not_sub_le hahead'.2.1 hfinish' (.inr hfinish) hnan htol hend'⟩
    · rw [hstay]
      exact ⟨hle, hlt⟩

/-- **Times that are not too large are reached.** -/
theorem exists_reached (hk : k.isFinite) (hpos : 0 < units k) (hfinish : finish.isFinite)
    (htime : time.isFinite) (hsmall : |units time| < (2 ^ 53 - 1) * units k)
    (hsmall' : |units finish| < (2 ^ 53 - 1) * units k) :
    ∃ n, finish - clock finish k time n ≤ endTolerance k := by
  refine (exists_reached_iff hk hpos).mpr fun n hend => ?_
  obtain ⟨hle, hlt⟩ := clock_between hk hpos hfinish htime hend
  have hunits := (lt_iff.mp hlt).2.2
  have hlow := abs_lt.mp hsmall
  have hhigh := abs_lt.mp hsmall'
  have hfinite : (clock finish k time n).isFinite := by
    have hlow' := abs_lt.mp (abs_units_lt htime)
    have hhigh' := abs_lt.mp (abs_units_lt hfinish)
    by_contra hinfinite
    have := units_infinite hinfinite (lt_iff.mp hlt).1
    omega
  rw [clock_succ]
  exact lt_nextTime_of_lt hk hpos (hend n le_rfl)
    (lt_add hfinite hk hpos (abs_lt.mpr ⟨by omega, by omega⟩))

/-! ### Integrations that end -/

/-- The decay from one, begun at a given time. -/
def decayFrom (time : Float) : Problem Float := decay.withTrajectory ⟨#[⟨[1], time⟩]⟩

/-- The decay can be begun at every time with every step that is positive and finite. -/
theorem decayFrom_ready (time : Float) (hpos : Scalar.ofNat 0 < k) (hk : k.isFinite) :
    (decayFrom time).ready k =
      .ok (fun u _ => .ok u.neg, .multistep (Multistep.ofPreset .forwardEuler)) := by
  have hspacing : (decayFrom time).trajectory.requireSpacing k = .ok () :=
    requireSpacing_eq_ok_iff.mpr
      ⟨⟨hpos, hk⟩, _, [], rfl, List.forall_mem_nil _, List.isChain_singleton _⟩
  have hready : (decayFrom time).ready k =
      (do
        ((decayFrom time).trajectory.requireSpacing k).mapError .trajectory
        ((decayFrom time).trajectory.requireDepth 1).mapError .trajectory
        return (fun u _ => .ok u.neg, .multistep (Multistep.ofPreset .forwardEuler))) := rfl
  rw [hready, hspacing]
  rfl

theorem decayFrom_last (time : Float) :
    (decayFrom time).trajectory.last? = some ⟨[1], time⟩ := rfl

theorem forwardEuler_isExplicit :
    (Scheme.multistep (Multistep.ofPreset .forwardEuler) : Scheme Float).isExplicit = true := by
  decide +kernel

/-- **When an integration by explicit steps ends**: if and only if no step is lost in rounding
before the time is reached, and in particular if the times are finite and less than `2⁵³ - 1`
times the step. -/
theorem integrate_returns_iff {p : Problem Float} {f : Field Float} {scheme : Scheme Float}
    {last : Sample Float} (hready : p.ready k = .ok (f, scheme))
    (hexplicit : scheme.isExplicit = true) (hf : Keeps f)
    (hlast : p.trajectory.last? = some last) :
    ((∃ budget report, p.integrate .silent () finish k budget = some report) ↔
      ∀ n, (∀ i ≤ n, ¬finish - clock finish k last.time i ≤ endTolerance k) →
        clock finish k last.time n < clock finish k last.time (n + 1)) ∧
    (finish.isFinite → last.time.isFinite → |units last.time| < (2 ^ 53 - 1) * units k →
      |units finish| < (2 ^ 53 - 1) * units k →
      ∃ budget report, p.integrate .silent () finish k budget = some report) := by
  obtain ⟨hk, hpos⟩ := step_pos_of_ready hready
  have hiff : (∃ budget report, p.integrate .silent () finish k budget = some report) ↔
      ∃ n, finish - clock finish k last.time n ≤ endTolerance k :=
    exists_integrate_iff hready hexplicit hf Observer.silent_silent hlast
  exact ⟨hiff.trans (exists_reached_iff hk hpos), fun hfinish htime hsmall hsmall' =>
    hiff.mpr (exists_reached hk hpos hfinish htime hsmall hsmall')⟩

/-- The decay from zero to one by steps of a quarter ends. -/
theorem integrate_returns_iff_decay :
    ∃ budget report, (decayFrom 0).integrate .silent () 1 0.25 budget = some report :=
  (integrate_returns_iff (decayFrom_ready 0 (by decide +kernel) (by decide +kernel))
    forwardEuler_isExplicit decay_keeps (decayFrom_last 0)).2 (by decide +kernel) (by decide +kernel)
    (by decide +kernel) (by decide +kernel)

/-- **An integration need not end**: from `10¹⁶` on a step of one is lost in rounding, and the
time that is two away is never reached. -/
theorem integrate_never_returns :
    (decayFrom 10000000000000000).ready 1 =
        .ok (fun u _ => .ok u.neg, .multistep (Multistep.ofPreset .forwardEuler)) ∧
      (Scheme.multistep (Multistep.ofPreset .forwardEuler) : Scheme Float).isExplicit = true ∧
      Keeps (fun (u : Vec Float) _ => .ok u.neg) ∧
      ∀ budget, (decayFrom 10000000000000000).integrate .silent () 10000000000000002 1 budget =
        none := by
  have hready := decayFrom_ready 10000000000000000 (k := 1) (by decide +kernel) (by decide +kernel)
  refine ⟨hready, forwardEuler_isExplicit, decay_keeps, fun budget => ?_⟩
  have hlost : nextTime 10000000000000002 1 10000000000000000 = (10000000000000000 : Float) := by
    decide +kernel
  by_contra hsome
  obtain ⟨report, hreport⟩ := Option.ne_none_iff_exists'.mp hsome
  obtain ⟨n, hn⟩ := (exists_integrate_iff hready forwardEuler_isExplicit decay_keeps
    Observer.silent_silent (decayFrom_last _)).mp ⟨budget, report, hreport⟩
  have hclock := clock_eq_of_nextTime_eq (n := 0) hlost n
  rw [Nat.zero_add] at hclock
  rw [hclock] at hn
  exact absurd hn (by decide +kernel)

end Stepwise.Ode
