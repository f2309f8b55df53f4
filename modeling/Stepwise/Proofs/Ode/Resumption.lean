import Stepwise.Proofs.Ode.Explicit
import Stepwise.Proofs.Interruption

/-!
# Integrations taken up again

An integration that was stopped by its observer, or that was asked to go to an earlier time
first, can be continued by another one to the same time. The continuation starts from nothing
but the recorded samples, and it checks them before it begins; so what has to be shown is that
the samples pass the check, and that the steps from them are the ones that were not made.

For that the steps are taken out of the runs. `Stepwise.Ode.Steps` says that so many steps
towards a time lead from one trajectory to another; no observer, journal or budget plays a part
in it. It can be taken apart anywhere (`Stepwise.Ode.Steps.split`), there is only one way to go
(`Stepwise.Ode.Steps.unique`), and an integration that completes is such a sequence with the
time reached at its end (`Stepwise.Ode.completes_iff`).

Steps towards different times differ only in a sample that is moved to its time. Those that
move none are `Stepwise.Ode.Strides`, which know no time to go to. All steps but the last of an
integration are strides (`Stepwise.Ode.Steps.strides_of_not_reached`), and so is the last one if
the time is on the grid, or not even close to it (`Stepwise.Ode.Clear.strides`). In exact
arithmetic the gaps that strides leave are the step itself, so what they lead to is accepted
again, for steps of any size.
-/

namespace Stepwise

/-! ### Observers that object once -/

/-- Of some events the observer objects to the one after `i` others, and to none before. -/
structure Observer.ObjectsAt {ε σ : Type} (o : Observer ε σ) (memory : σ) (events : List ε)
    (i : Nat) : Prop where
  /-- It lets the run go on until then. -/
  proceed : ∀ j < i, (o.answers memory events)[j]? = some .proceed
  /-- It objects. -/
  stop : (o.answers memory events)[i]? = some .stop

/-- The first events are answered without regard to those that follow. -/
theorem Observer.getElem?_answers_of_prefix {ε σ : Type} (o : Observer ε σ) (memory : σ)
    {events whole : List ε} (h : events <+: whole) {i : Nat} (hi : i < events.length) :
    (o.answers memory whole)[i]? = (o.answers memory events)[i]? := by
  induction events generalizing memory whole i with
  | nil => exact absurd hi (Nat.not_lt_zero i)
  | cons e events ih =>
    obtain ⟨rest, rfl⟩ := h
    cases i with
    | zero => rfl
    | succ i => exact ih _ (List.prefix_append events rest) (Nat.lt_of_succ_lt_succ hi)

/-- The observer that stops a run at a number objects to the event that carries it, if the
events are numbered from one. -/
theorem Observer.keeping_objectsAt {ε : Type} {count n : Nat} {number : ε → Nat} {kept : Array ε}
    {events : List ε} (hnumbers : events.map number = List.range' 1 n) {i : Nat} (hi : i < n) :
    (Observer.keeping count number (some (i + 1))).ObjectsAt kept events i := by
  -- The answer to an event does not depend on what is remembered.
  have hanswers (kept : Array ε) : (Observer.keeping count number (some (i + 1))).answers kept
      events = (events.map number).map fun n => if i + 1 = n then .stop else .proceed := by
    clear hnumbers hi
    induction events generalizing kept with
    | nil => rfl
    | cons e events ih =>
      rw [Observer.answers, ih]
      simp [Observer.keeping]
  rw [hnumbers] at hanswers
  refine ⟨fun j hj => ?_, ?_⟩
  · have hne : ¬i + 1 = 1 + j := by omega
    simp [hanswers, hj.trans hi, hne]
  · simp [hanswers, hi, Nat.add_comm]

namespace Ode

/-! ### Steps apart from the run -/

section Steps

variable {R : Type} [Scalar R]

/-- So many steps towards the time `finish` lead from one trajectory to another, and before none
of them the time counts as reached. -/
inductive Steps (f : Field R) (scheme : Scheme R) (m : Descent.Minimiser R) (finish k : R) :
    Nat → Trajectory R → Trajectory R → Prop
  /-- No step leads nowhere else. -/
  | refl (h : Trajectory R) : Steps f scheme m finish k 0 h h
  /-- One more step. -/
  | step {n : Nat} {h here : Trajectory R} {last : Sample R} {state : Vec R}
      (hbefore : Steps f scheme m finish k n h here) (hlast : here.last? = some last)
      (hend : ¬finish - last.time ≤ endTolerance k)
      (hstep : (scheme.step f here last k m).outcome = .ok state) :
      Steps f scheme m finish k (n + 1) h (here.push ⟨state, nextTime finish k last.time⟩)

variable {f : Field R} {scheme : Scheme R} {m : Descent.Minimiser R} {finish k : R} {n : Nat}
  {h h' h'' : Trajectory R}

/-- There is only one way to go. -/
theorem Steps.unique (hsteps : Steps f scheme m finish k n h h')
    (hsteps' : Steps f scheme m finish k n h h'') : h' = h'' := by
  induction hsteps generalizing h'' with
  | refl h =>
    cases hsteps'
    rfl
  | step hbefore hlast hend hstep ih =>
    obtain _ | ⟨hbefore', hlast', hend', hstep'⟩ := hsteps'
    obtain rfl := ih hbefore'
    obtain rfl := Option.some.inj (hlast.symm.trans hlast')
    obtain rfl := Except.ok.inj (hstep.symm.trans hstep')
    rfl

/-- **A sequence of steps can be taken apart anywhere.** -/
theorem Steps.split {i j : Nat} (hsteps : Steps f scheme m finish k (i + j) h h'') :
    ∃ h', Steps f scheme m finish k i h h' ∧ Steps f scheme m finish k j h' h'' := by
  induction j generalizing h'' with
  | zero => exact ⟨h'', hsteps, .refl h''⟩
  | succ j ih =>
    obtain _ | ⟨hbefore, hlast, hend, hstep⟩ := hsteps
    obtain ⟨h', hfirst, hsecond⟩ := ih hbefore
    exact ⟨h', hfirst, .step hsecond hlast hend hstep⟩

/-- If there are steps to be made, then the time is not reached yet. -/
theorem Steps.not_reached (hsteps : Steps f scheme m finish k (n + 1) h h') {last : Sample R}
    (hlast : h.last? = some last) : ¬finish - last.time ≤ endTolerance k := by
  rw [Nat.add_comm n 1] at hsteps
  obtain ⟨mid, hfirst, -⟩ := hsteps.split
  obtain _ | ⟨hbefore, hlast', hend, -⟩ := hfirst
  cases hbefore
  cases hlast.symm.trans hlast'
  exact hend

/-! ### Steps and runs -/

variable {σ : Type} {p : Problem R} {observer : Observer (Arrival R) σ} {memory : σ}

/-- What an integration has come to, its steps lead to. -/
theorem Reaches.steps {q : Progress R σ} (hreach : Reaches p f scheme observer memory finish k n q) :
    Steps f scheme p.minimiser finish k n p.trajectory q.trajectory := by
  induction n generalizing q with
  | zero =>
    rw [Reaches.zero.mp hreach]
    exact .refl _
  | succ n ih =>
    obtain ⟨before, hbefore, hnext⟩ := Reaches.succ.mp hreach
    cases passage_iff.mpr hnext with
    | onward hlast hend hstep hsample hverdict =>
      subst hsample
      exact .step (ih hbefore) hlast hend hstep

/-- Where steps lead to, an integration comes that nobody stops. -/
theorem Steps.exists_reaches (hsteps : Steps f scheme p.minimiser finish k n p.trajectory h')
    (hsilent : observer.Silent) (memory : σ) :
    ∃ q, Reaches p f scheme observer memory finish k n q ∧ q.trajectory = h' := by
  induction n generalizing h' with
  | zero =>
    cases hsteps
    exact ⟨_, Reaches.zero.mpr rfl, rfl⟩
  | succ n ih =>
    obtain _ | ⟨hbefore, hlast, hend, hstep⟩ := hsteps
    obtain ⟨q, hreach, rfl⟩ := ih hbefore
    have honward : Passage f scheme p.minimiser observer finish k n q _ :=
      .onward hlast hend hstep rfl (hsilent q.observer _)
    exact ⟨_, Reaches.succ.mpr ⟨q, hreach, passage_iff.mp honward⟩, rfl⟩

/-- **An integration that ended well has made its steps**, and if the observer did not end it
then the time is reached. -/
theorem steps_of_integrate {budget : Nat} {report : Report R σ} {c : Completion R}
    (hready : p.ready k = .ok (f, scheme))
    (hrun : p.integrate observer memory finish k budget = some report)
    (hc : report.outcome = .ok c) :
    Steps f scheme p.minimiser finish k c.steps p.trajectory report.trajectory ∧
      (c.ending = .complete → c.steps < budget ∧ ∃ last, report.trajectory.last? = some last ∧
        last.time = c.time ∧ finish - last.time ≤ endTolerance k) := by
  cases integrate_eq_some.mp hrun with
  | refused hrefused => exact nomatch hc
  | last hready' hn hreach hlast =>
    obtain ⟨rfl, rfl⟩ := Prod.mk.inj (Except.ok.inj (hready.symm.trans hready'))
    cases passage_iff.mpr hlast with
    | empty hnone => exact nomatch hc
    | @failure last e hsome hend hstep => cases e <;> exact nomatch hc
    | reached hsome hend =>
      cases hc
      exact ⟨hreach.steps, fun _ => ⟨hn, _, hsome, rfl, hend⟩⟩
    | stopped hsome hend hstep hsample hverdict =>
      cases hc
      subst hsample
      exact ⟨.step hreach.steps hsome hend hstep, nofun⟩

/-! ### Integrations that complete -/

/-- Within a budget of rounds the integration completes in `n` steps at a time, and leaves a
trajectory. -/
def Completes (p : Problem R) (finish k : R) (budget n : Nat) (time : R) (h : Trajectory R) :
    Prop :=
  ∃ report : Report R Unit, p.integrate .silent () finish k budget = some report ∧
    report.outcome = .ok ⟨.complete, n, time⟩ ∧ report.trajectory = h

/-- **An integration completes if its steps lead to where the time is reached.** -/
theorem completes_iff (hready : p.ready k = .ok (f, scheme)) {budget : Nat} {time : R} :
    Completes p finish k budget n time h ↔
      n < budget ∧ Steps f scheme p.minimiser finish k n p.trajectory h ∧
        ∃ last, h.last? = some last ∧ last.time = time ∧ finish - last.time ≤ endTolerance k := by
  constructor
  · rintro ⟨report, hrun, hc, rfl⟩
    obtain ⟨hsteps, hcomplete⟩ := steps_of_integrate hready hrun hc
    obtain ⟨hn, hlast⟩ := hcomplete rfl
    exact ⟨hn, hsteps, hlast⟩
  · rintro ⟨hn, hsteps, last, hlast, rfl, hend⟩
    obtain ⟨q, hreach, rfl⟩ := hsteps.exists_reaches Observer.silent_silent ()
    have hreached : Passage f scheme p.minimiser .silent finish k n q _ := .reached hlast hend
    exact ⟨_, integrate_eq_some.mpr (.last hready hn hreach (passage_iff.mp hreached)), rfl, rfl⟩

/-- Steps record one sample each. -/
theorem Steps.size_eq (hsteps : Steps f scheme m finish k n h h') : h'.size = h.size + n := by
  induction hsteps with
  | refl h => rfl
  | step hbefore hlast hend hstep ih =>
    rw [Trajectory.size, Trajectory.push, Array.size_push, ← Nat.add_assoc, ← ih]
    rfl

omit [Scalar R] in
theorem requireDepth_eq_ok_iff {needed : Nat} :
    h.requireDepth needed = .ok () ↔ needed ≤ h.size := by
  simp [Trajectory.requireDepth]

/-- After steps an integration can be continued if the samples are evenly spaced: there are no
fewer of them. -/
theorem Steps.ready (hsteps : Steps f scheme m finish k n p.trajectory h')
    (hready : p.ready k = .ok (f, scheme)) (hspacing : h'.requireSpacing k = .ok ()) :
    (p.withTrajectory h').ready k = .ok (f, scheme) := by
  obtain ⟨hfield, hscheme, -, hdepth⟩ := ready_eq_ok_iff.mp hready
  refine ready_eq_ok_iff.mpr ⟨hfield, hscheme, hspacing, requireDepth_eq_ok_iff.mpr ?_⟩
  have hsize : scheme.depth ≤ p.trajectory.size := requireDepth_eq_ok_iff.mp hdepth
  change scheme.depth ≤ h'.size
  rw [hsteps.size_eq]
  omega

end Steps

/-! ### Strides -/

section Strides

variable {f : Field ℝ} {scheme : Scheme ℝ} {m : Descent.Minimiser ℝ} {finish k t₀ : ℝ} {n : ℕ}
  {h h' : Trajectory ℝ}

/-- So many steps of exactly the step's length lead from one trajectory to another. -/
inductive Strides (f : Field ℝ) (scheme : Scheme ℝ) (m : Descent.Minimiser ℝ) (k : ℝ) :
    ℕ → Trajectory ℝ → Trajectory ℝ → Prop
  /-- No step leads nowhere else. -/
  | refl (h : Trajectory ℝ) : Strides f scheme m k 0 h h
  /-- One more step. -/
  | step {n : ℕ} {h here : Trajectory ℝ} {last : Sample ℝ} {state : Vec ℝ}
      (hbefore : Strides f scheme m k n h here) (hlast : here.last? = some last)
      (hstep : (scheme.step f here last k m).outcome = .ok state) :
      Strides f scheme m k (n + 1) h (here.push ⟨state, last.time + k⟩)

/-- **Strides keep the samples evenly spaced**, for steps of any size. -/
theorem Strides.requireSpacing (hstrides : Strides f scheme m k n h h')
    (hspacing : h.requireSpacing k = .ok ()) : h'.requireSpacing k = .ok () := by
  induction hstrides with
  | refl h => exact hspacing
  | @step n h here last state hbefore hlast hstep ih =>
    exact requireSpacing_push (ih hspacing) hlast (length_of_step hstep)
      (matches_of_gap_eq (add_sub_cancel_left _ _))

/-- Strides lead along the grid. -/
theorem Strides.exists_last (hstrides : Strides f scheme m k n h h')
    (hlast : ∃ last, h.last? = some last ∧ last.time = t₀) :
    ∃ here, h'.last? = some here ∧ here.time = t₀ + n * k := by
  induction hstrides with
  | refl h => simpa using hlast
  | step hbefore hlast' hstep ih =>
    obtain ⟨here, hhere, htime⟩ := ih hlast
    cases hhere.symm.trans hlast'
    refine ⟨_, Trajectory.last?_push, ?_⟩
    rw [htime]
    push_cast
    ring

/-- Strides are steps towards every time that is not reached before the last of them and does
not move a sample. -/
theorem Strides.steps (hstrides : Strides f scheme m k n h h')
    (hlast : ∃ last, h.last? = some last ∧ last.time = t₀)
    (hend : ∀ i < n, 1e-6 * k < finish - (t₀ + i * k))
    (hgrid : ∀ i < n, nextTime finish k (t₀ + i * k) = t₀ + i * k + k) :
    Steps f scheme m finish k n h h' := by
  induction hstrides with
  | refl h => exact .refl h
  | @step n h here last state hbefore hlast' hstep ih =>
    obtain ⟨here', hhere, htime⟩ := hbefore.exists_last hlast
    cases hhere.symm.trans hlast'
    have hbefore' := ih hlast (fun i hi => hend i (by omega)) fun i hi => hgrid i (by omega)
    rw [htime, ← hgrid n n.lt_succ_self, ← htime]
    refine .step hbefore' hlast' ?_ hstep
    rw [htime, endTolerance_real, not_le]
    exact hend n n.lt_succ_self

/-- A sample that is moved is the last one: otherwise it is where the step leads. -/
theorem nextTime_of_not_reached (hk : 0 ≤ k) {time : ℝ}
    (hend : ¬finish - nextTime finish k time ≤ endTolerance k) :
    nextTime finish k time = time + k := by
  rw [nextTime] at hend ⊢
  split_ifs at hend ⊢ with hclose
  · rw [sub_self, endTolerance_real] at hend
    exact absurd (by positivity) hend
  · rfl

/-- **All steps but the last of an integration are strides.** -/
theorem Steps.strides_of_not_reached (hk : 0 ≤ k) (hsteps : Steps f scheme m finish k n h h')
    (hend : ∀ last, h'.last? = some last → ¬finish - last.time ≤ endTolerance k) :
    Strides f scheme m k n h h' := by
  induction hsteps with
  | refl h => exact .refl h
  | step hbefore hlast hend' hstep ih =>
    have hbefore' := ih fun last' hlast' => by
      cases hlast.symm.trans hlast'
      exact hend'
    rw [nextTime_of_not_reached hk (hend _ Trajectory.last?_push)]
    exact .step hbefore' hlast hstep

/-! ### Times that move no sample -/

/-- The time is on the grid of the step from `t₀` on, or farther from all of it than counts as
reached. -/
def Clear (k t₀ time : ℝ) : Prop :=
  (∃ i : ℕ, time = t₀ + i * k) ∨ ∀ i : ℕ, 1e-6 * k < |time - (t₀ + i * k)|

/-- Such a time is close to a place of the grid only if it is that place. -/
theorem Clear.eq_of_close (hclear : Clear k t₀ finish) (hk : 0 < k) {i : ℕ}
    (hclose : |finish - (t₀ + i * k)| ≤ 1e-6 * k) : finish = t₀ + i * k := by
  rcases hclear with ⟨j, rfl⟩ | hfar
  · have hdistance : t₀ + j * k - (t₀ + i * k) = ((j - i : ℤ) : ℝ) * k := by
      push_cast
      ring
    -- Two places of the grid that are closer than a step are the same.
    rw [hdistance, abs_mul, abs_of_pos hk, mul_le_mul_iff_left₀ hk] at hclose
    have hsmall : |((j - i : ℤ) : ℝ)| < 1 := hclose.trans_lt (by norm_num)
    have hsame : (j : ℤ) - i = 0 := by
      rw [← Int.cast_abs] at hsmall
      exact Int.abs_lt_one_iff.mp (by exact_mod_cast hsmall)
    rw [show j = i by omega]
  · exact absurd hclose (not_le.mpr (hfar i))

/-- On the way to such a time every sample is recorded where the step leads. -/
theorem Clear.nextTime_eq (hclear : Clear k t₀ finish) (hk : 0 < k) (i : ℕ) :
    nextTime finish k (t₀ + i * k) = t₀ + i * k + k := by
  rw [nextTime, Scalar.abs_real, endTolerance_real]
  split_ifs with hclose
  · have hplace : t₀ + i * k + k = t₀ + ((i + 1 : ℕ) : ℝ) * k := by
      push_cast
      ring
    rw [hplace] at hclose ⊢
    exact hclear.eq_of_close hk hclose
  · rfl

/-- **All steps to such a time are strides.** -/
theorem Clear.strides (hclear : Clear k t₀ finish) (hk : 0 < k)
    (hsteps : Steps f scheme m finish k n h h')
    (hlast : ∃ last, h.last? = some last ∧ last.time = t₀) : Strides f scheme m k n h h' := by
  induction hsteps with
  | refl h => exact .refl h
  | step hbefore hlast' hend hstep ih =>
    have hbefore' := ih hlast
    obtain ⟨here, hhere, htime⟩ := hbefore'.exists_last hlast
    cases hhere.symm.trans hlast'
    rw [htime, hclear.nextTime_eq hk, ← htime]
    exact .step hbefore' hlast' hstep

end Strides

/-! ### Taking up an integration -/

section Resumption

variable {R σ : Type} [Scalar R] {p : Problem R} {finish k time : R} {budget n : Nat}
  {h : Trajectory R}

/-- **An observer that objects to a new sample stops the integration with it.** -/
theorem Completes.stopped (hwhole : Completes p finish k budget n time h)
    {observer : Observer (Arrival R) σ} {memory : σ} {i : Nat}
    (hobjects : observer.ObjectsAt memory (p.events .silent () finish k budget) i) :
    ∃ part t, p.integrate observer memory finish k budget = some part ∧
      part.outcome = .ok ⟨.stopped, i + 1, t⟩ := by
  obtain ⟨report, hrun, -, -⟩ := hwhole
  obtain ⟨part, hpart, htruncates⟩ := onlyTruncates hrun observer memory
  have hsame {j : Nat} := observer.getElem?_answers_of_prefix memory htruncates.told (i := j)
  rcases Nat.lt_or_ge i (p.events observer memory finish k budget).length with hlt | hge
  · obtain ⟨e, -, -, -, hend, -⟩ := htruncates.stopped i ((hsame hlt).symm.trans hobjects.stop)
    exact ⟨part, _, hpart, hend⟩
  · -- An observer that was never told of the sample has not objected, so it was told of all.
    have hproceed : ∀ v ∈ observer.answers memory (p.events observer memory finish k budget),
        v = .proceed := by
      intro v hv
      obtain ⟨j, hj, rfl⟩ := List.mem_iff_getElem.mp hv
      rw [Observer.length_answers] at hj
      have hanswer := (hsame hj).symm.trans (hobjects.proceed j (by omega))
      exact (List.getElem?_eq_some_iff.mp hanswer).2
    obtain ⟨-, -, hall⟩ := htruncates.unopposed hproceed
    have hstop := hobjects.stop
    rw [← hall, List.getElem?_eq_none (by rwa [Observer.length_answers])] at hstop
    exact nomatch hstop

/-- An integration that completes delivers one event for each step, numbered from one. -/
theorem Completes.map_step (hwhole : Completes p finish k budget n time h) :
    (p.events .silent () finish k budget).map Arrival.step = List.range' 1 n := by
  obtain ⟨report, hrun, hc, -⟩ := hwhole
  rw [integrate_logging p .silent () [] finish k budget] at hrun
  obtain ⟨logged, hlogged, rfl⟩ := Option.map_eq_some_iff.mp hrun
  obtain ⟨haccount, -⟩ := (integrate_eq_some.mp hlogged).account
  obtain ⟨hcount, -⟩ := haccount.ended _ hc
  rw [Problem.events, hlogged, show n = logged.observer.2.length from hcount]
  exact haccount.steps_eq

end Resumption

section Exact

variable {σ : Type} {p : Problem ℝ} {f : Field ℝ} {scheme : Scheme ℝ} {finish k time : ℝ}
  {budget N : ℕ} {h h' : Trajectory ℝ}

/-- **From where strides lead, the rest of the steps completes the integration.** -/
theorem Strides.completes {i j : ℕ} (hready : p.ready k = .ok (f, scheme))
    (hstrides : Strides f scheme p.minimiser k i p.trajectory h')
    (hbefore : Steps f scheme p.minimiser finish k i p.trajectory h')
    (hrest : Steps f scheme p.minimiser finish k j h' h) (hj : j < budget)
    (hend : ∃ last, h.last? = some last ∧ last.time = time ∧
      finish - last.time ≤ endTolerance k) :
    Completes (p.withTrajectory h') finish k budget j time h := by
  have hspacing := hstrides.requireSpacing (requireSpacing_of_ready hready)
  exact (completes_iff (hbefore.ready hready hspacing)).mpr ⟨hj, hrest, hend⟩

/-- An integration that completes was not refused. -/
theorem Completes.exists_ready (hwhole : Completes p finish k budget N time h) :
    ∃ f scheme, p.ready k = .ok (f, scheme) := by
  obtain ⟨report, hrun, hc, -⟩ := hwhole
  cases integrate_eq_some.mp hrun with
  | refused hrefused => exact nomatch hc
  | last hready hn hreach hlast => exact ⟨_, _, hready⟩

/-- **After an interruption the integration completes with the steps that are left.** -/
theorem Completes.resume (hwhole : Completes p finish k budget N time h)
    {observer : Observer (Arrival ℝ) σ} {memory : σ} {part : Report ℝ σ} {i : ℕ} {t : ℝ}
    (hi : i < N) (hpart : p.integrate observer memory finish k budget = some part)
    (hstopped : part.outcome = .ok ⟨.stopped, i, t⟩) :
    Completes (p.after part) finish k budget (N - i) time h := by
  obtain ⟨f, scheme, hready⟩ := hwhole.exists_ready
  have hk : 0 < k := by simpa using pos_of_requireSpacing (requireSpacing_of_ready hready)
  obtain ⟨hN, hsteps, hend⟩ := (completes_iff hready).mp hwhole
  obtain ⟨hbefore, -⟩ := steps_of_integrate hready hpart hstopped
  obtain ⟨j, rfl⟩ : ∃ j, N = i + (j + 1) := ⟨N - i - 1, by omega⟩
  obtain ⟨h', hfirst, hrest⟩ := hsteps.split
  -- The interrupted integration has made the same steps, and there is one more to come.
  obtain rfl := hfirst.unique hbefore
  have hstrides := hfirst.strides_of_not_reached hk.le fun last hlast => hrest.not_reached hlast
  rw [Nat.add_sub_cancel_left]
  exact hstrides.completes hready hfirst hrest (by omega) hend

/-- **An integration can call at an earlier time**, if neither time moves a sample. -/
theorem Completes.call (hwhole : Completes p finish k budget N time h) {last : Sample ℝ}
    (hlast : p.trajectory.last? = some last) {e : ℝ} (he : e ≤ finish)
    (hclear : Clear k last.time e) (hclear' : Clear k last.time finish) :
    ∃ i j t h', i + j = N ∧ Completes p e k budget i t h' ∧
      Completes (p.withTrajectory h') finish k budget j time h := by
  obtain ⟨f, scheme, hready⟩ := hwhole.exists_ready
  have hk : 0 < k := by simpa using pos_of_requireSpacing (requireSpacing_of_ready hready)
  obtain ⟨hN, hsteps, hend⟩ := (completes_iff hready).mp hwhole
  have hstart : ∃ first, p.trajectory.last? = some first ∧ first.time = last.time :=
    ⟨last, hlast, rfl⟩
  -- The earlier time is reached first, since it is reached when the later one is.
  obtain ⟨i, hi⟩ : ∃ i, IsStepCount e k last.time i := exists_isStepCount hk
  have hle : i ≤ N := by
    obtain ⟨here, hhere, htime⟩ := (hclear'.strides hk hsteps hstart).exists_last hstart
    obtain ⟨final, hfinal, -, hreached⟩ := hend
    cases hhere.symm.trans hfinal
    rw [htime, endTolerance_real] at hreached
    exact hi.2 (show e - (last.time + N * k) ≤ 1e-6 * k by linarith)
  obtain ⟨j, rfl⟩ : ∃ j, N = i + j := ⟨N - i, by omega⟩
  obtain ⟨h', hfirst, hrest⟩ := hsteps.split
  have hstrides := hclear'.strides hk hfirst hstart
  obtain ⟨here, hhere, htime⟩ := hstrides.exists_last hstart
  have hearly : Steps f scheme p.minimiser e k i p.trajectory h' :=
    hstrides.steps hstart (fun _ => hi.not_reached) fun n _ => hclear.nextTime_eq hk n
  have hreached : e - here.time ≤ endTolerance k := by
    rw [htime, endTolerance_real]
    exact hi.1
  exact ⟨i, j, here.time, h', rfl,
    (completes_iff hready).mpr ⟨by omega, hearly, here, hhere, rfl, hreached⟩,
    hstrides.completes hready hfirst hrest (by omega) hend⟩

/-- **Interrupting and continuing an integration changes nothing.** In exact arithmetic, if an
integration completes in `N` steps, then so do, in `N` steps together and with the same samples,
its first steps up to an objection of the observer and an integration from there, and an
integration to an earlier time and one from there, if neither time moves a sample off the
grid. -/
theorem integrate_resumes (hwhole : Completes p finish k budget N time h) :
    (∀ (observer : Observer (Arrival ℝ) σ) (memory : σ) (i : ℕ), i + 1 < N →
        observer.ObjectsAt memory (p.events .silent () finish k budget) i →
        ∃ part t, p.integrate observer memory finish k budget = some part ∧
          part.outcome = .ok ⟨.stopped, i + 1, t⟩ ∧
          Completes (p.after part) finish k budget (N - (i + 1)) time h) ∧
      ∀ last e, p.trajectory.last? = some last → e ≤ finish → Clear k last.time e →
        Clear k last.time finish →
        ∃ i j t h', i + j = N ∧ Completes p e k budget i t h' ∧
          Completes (p.withTrajectory h') finish k budget j time h := by
  constructor
  · intro observer memory i hi hobjects
    obtain ⟨part, t, hpart, hstopped⟩ := hwhole.stopped hobjects
    exact ⟨part, t, hpart, hstopped, hwhole.resume hi hpart hstopped⟩
  · intro last e hlast he hclear hclear'
    exact hwhole.call hlast he hclear hclear'

/-! ### The decay in two steps -/

/-- The decay completes in two steps of a half. -/
theorem decay_completes : ∃ t h, Completes (decay : Problem ℝ) 1 (1 / 2) 3 2 t h := by
  have hk : (0 : ℝ) < 1 / 2 := by norm_num
  have hexplicit : (Scheme.multistep (Multistep.ofPreset .forwardEuler) : Scheme ℝ).isExplicit =
      true := by
    simp [Scheme.isExplicit, Multistep.isExplicit, Multistep.leading, Multistep.ofPreset,
      Scalar.singleGap]
  have hlast : (decay : Problem ℝ).trajectory.last? = some ⟨[1], 0⟩ := by
    simp [decay, Trajectory.last?]
  -- The first step leads half the way, the second one all of it.
  have hfirst : clock (1 : ℝ) (1 / 2) 0 1 = 1 / 2 := by
    norm_num [clock, nextTime, endTolerance_real]
  have hsecond : clock (1 : ℝ) (1 / 2) 0 2 = 1 := by
    rw [clock_succ, hfirst]
    norm_num [nextTime, endTolerance_real]
  have hend : ∀ i < 2, ¬(1 : ℝ) - clock 1 (1 / 2) 0 i ≤ endTolerance (1 / 2) := by
    intro i hi
    obtain rfl | rfl : i = 0 ∨ i = 1 := by omega
    · norm_num [clock, endTolerance_real]
    · rw [hfirst]
      norm_num [endTolerance_real]
  have hsilent : (Observer.silent : Observer (Arrival ℝ) Unit).Silent := Observer.silent_silent
  obtain ⟨q, hreach, hticking⟩ := exists_reaches (decay_ready hk) hexplicit decay_keeps hsilent hlast
    () hend
  obtain ⟨here, hhere, htime⟩ := hticking.last
  refine ⟨here.time, q.trajectory, (completes_iff (decay_ready hk)).mpr
    ⟨by norm_num, hreach.steps, here, hhere, rfl, ?_⟩⟩
  rw [htime, hsecond, sub_self, endTolerance_real]
  norm_num

/-- The decay in two steps of a half, interrupted after the first step, and asked to go half the
way first. -/
theorem integrate_resumes_decay :
    ∃ t h, Completes (decay : Problem ℝ) 1 (1 / 2) 3 2 t h ∧
      (∃ part t', (decay : Problem ℝ).integrate (.keeping 8 Arrival.step (some 1)) #[] 1 (1 / 2) 3 =
          some part ∧ part.outcome = .ok ⟨.stopped, 1, t'⟩ ∧
          Completes ((decay : Problem ℝ).after part) 1 (1 / 2) 3 1 t h) ∧
      ∃ i j t' h', i + j = 2 ∧ Completes (decay : Problem ℝ) (1 / 2) (1 / 2) 3 i t' h' ∧
        Completes ((decay : Problem ℝ).withTrajectory h') 1 (1 / 2) 3 j t h := by
  obtain ⟨t, h, hwhole⟩ := decay_completes
  obtain ⟨hinterrupted, hcalled⟩ := integrate_resumes (σ := Array (Arrival ℝ)) hwhole
  have hlast : (decay : Problem ℝ).trajectory.last? = some ⟨[1], 0⟩ := by
    simp [decay, Trajectory.last?]
  refine ⟨t, h, hwhole, hinterrupted _ #[] 0 (by norm_num) ?_,
    hcalled ⟨[1], 0⟩ (1 / 2) hlast (by norm_num) (.inl ⟨1, by norm_num⟩)
      (.inl ⟨2, by norm_num⟩)⟩
  exact Observer.keeping_objectsAt hwhole.map_step (by norm_num)

end Exact

end Ode

end Stepwise
