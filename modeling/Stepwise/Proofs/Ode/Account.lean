import Stepwise.Proofs.Ode.Course

/-!
# What an integration tells and what it leaves behind

Whatever ends an integration, the samples that it has appended are the ones that the
observer was told about, and its outcome counts them. `Stepwise.Ode.Account` lists what
that means for each way to end, and `Stepwise.Ode.integrate_account` says that every
integration that comes to an end leaves such an account.

The invariant is `Stepwise.Ode.Recorded`: the trajectory is the old one with the samples
of the events appended, and the events are numbered from one. A round that records a
sample tells it first, under the number it gets; every other round leaves both as they
are. The only rounds that could break the agreement are those that end the run, and each
of them either does neither or both.
-/

namespace Stepwise.Ode

variable {R σ : Type} [Scalar R]

/-- The events that an integration delivers to an observer. -/
def Problem.events (p : Problem R) (observer : Observer (Arrival R) σ) (memory : σ)
    (finish k : R) (budget : Nat) : List (Arrival R) :=
  ((p.integrate observer.logging (memory, []) finish k budget).map (·.observer.2)).getD []

/-- The trajectory is the old one with the samples of the events, which are numbered from
one. -/
structure Recorded (old new : Trajectory R) (events : List (Arrival R)) : Prop where
  /-- The old samples come first, and the samples of the events follow. -/
  samples_eq : new.samples.toList = old.samples.toList ++ events.map Arrival.sample
  /-- The events are numbered from one. -/
  steps_eq : events.map Arrival.step = List.range' 1 events.length

/-- The report and the events are accounts of one integration. -/
structure Account (p : Problem R) (finish k : R) (report : Report R σ)
    (events : List (Arrival R)) : Prop extends
    Recorded p.trajectory report.trajectory events where
  /-- An integration that ended well counts its samples and names the time of the last. -/
  ended : ∀ c, report.outcome = .ok c →
    c.steps = events.length ∧ ∃ last, report.trajectory.last? = some last ∧ last.time = c.time
  /-- An integration fails with an error of its own only if it is refused, and then nothing
  happens. -/
  refused : ∀ e, report.outcome = .error (.error e) → (∀ time cause, e ≠ .step time cause) →
    p.ready k = .error e ∧ events = [] ∧ report.trajectory = p.trajectory
  /-- An integration fails at a step if the step from the samples so far fails, and names the
  time at which the next sample would have been recorded. -/
  failed : ∀ time cause, report.outcome = .error (.error (.step time cause)) →
    ∃ f scheme last, p.ready k = .ok (f, scheme) ∧ report.trajectory.last? = some last ∧
      time = nextTime finish k last.time ∧
      (scheme.step f report.trajectory last k p.minimiser).outcome = .error (.error cause)
  /-- Nothing but the trajectory changes. -/
  frame : (p.after report).field? = p.field? ∧ (p.after report).scheme? = p.scheme? ∧
    (p.after report).minimiser = p.minimiser

/-! ### One more sample -/

omit [Scalar R] in
theorem Recorded.refl (h : Trajectory R) : Recorded h h [] where
  samples_eq := by simp
  steps_eq := rfl

omit [Scalar R] in
/-- A sample that is told under its number and then recorded. -/
theorem Recorded.push {old new : Trajectory R} {events : List (Arrival R)}
    (h : Recorded old new events) (sample : Sample R) :
    Recorded old (new.push sample) (events ++ [⟨events.length + 1, sample⟩]) where
  samples_eq := by simp [h.samples_eq]
  steps_eq := by
    rw [List.map_append, h.steps_eq, List.length_append, List.length_singleton,
      List.range'_1_concat, Nat.add_comm 1]
    rfl

/-! ### The ways to end -/

section Endings

variable {p : Problem R} {finish k : R} {report : Report R σ} {events : List (Arrival R)}

/-- The account of an integration that ended well. -/
theorem Account.of_ok {c : Completion R} {last : Sample R}
    (h : Recorded p.trajectory report.trajectory events) (hc : report.outcome = .ok c)
    (hsteps : c.steps = events.length) (hlast : report.trajectory.last? = some last)
    (htime : last.time = c.time) : Account p finish k report events := by
  refine { h with ended := ?_, refused := ?_, failed := ?_, frame := ⟨rfl, rfl, rfl⟩ }
  · intro d hd
    obtain rfl : c = d := Except.ok.inj (hc.symm.trans hd)
    exact ⟨hsteps, last, hlast, htime⟩
  · intro e he
    exact nomatch hc.symm.trans he
  · intro time cause he
    exact nomatch hc.symm.trans he

/-- The account of an integration that met a fault. -/
theorem Account.of_fault {e : Fault} (h : Recorded p.trajectory report.trajectory events)
    (he : report.outcome = .error (.fault e)) : Account p finish k report events := by
  refine { h with ended := ?_, refused := ?_, failed := ?_, frame := ⟨rfl, rfl, rfl⟩ }
  · intro c hc
    exact nomatch he.symm.trans hc
  · intro e hc
    exact nomatch he.symm.trans hc
  · intro time cause hc
    exact nomatch he.symm.trans hc

/-- The account of an integration at which a step failed. -/
theorem Account.of_step {f : Field R} {scheme : Scheme R} {last : Sample R}
    {cause : Descent.Error R} (h : Recorded p.trajectory report.trajectory events)
    (hready : p.ready k = .ok (f, scheme)) (hlast : report.trajectory.last? = some last)
    (hstep : (scheme.step f report.trajectory last k p.minimiser).outcome = .error (.error cause))
    (he : report.outcome = .error (.error (.step (nextTime finish k last.time) cause))) :
    Account p finish k report events := by
  refine { h with ended := ?_, refused := ?_, failed := ?_, frame := ⟨rfl, rfl, rfl⟩ }
  · intro c hc
    exact nomatch he.symm.trans hc
  · intro e hc hne
    cases he.symm.trans hc
    exact absurd rfl (hne _ _)
  · intro time cause hc
    cases he.symm.trans hc
    exact ⟨f, scheme, last, hready, hlast, rfl, hstep⟩

/-- The account of an integration that was refused. -/
theorem Account.of_refusal {memory : σ} {e : Error R} (hready : p.ready k = .error e) :
    Account p finish k (⟨.error (.error e), p.trajectory, memory, #[]⟩ : Report R σ) [] := by
  refine { Recorded.refl p.trajectory with
    ended := ?_, refused := ?_, failed := ?_, frame := ⟨rfl, rfl, rfl⟩ }
  · intro c hc
    exact nomatch hc
  · intro d hd _
    cases hd
    exact ⟨hready, rfl, rfl⟩
  · intro time cause hc
    cases hc
    exact absurd hready ready_ne_step

end Endings

/-! ### The invariant -/

section Invariant

variable {p : Problem R} {f : Field R} {scheme : Scheme R} {observer : Observer (Arrival R) σ}
  {memory : σ} {finish k : R}

/-- **After `n` steps `n` events have been told and their samples recorded.** -/
theorem Reaches.recorded {n : Nat} {q : Progress R (σ × List (Arrival R))}
    (h : Reaches p f scheme observer.logging (memory, []) finish k n q) :
    Recorded p.trajectory q.trajectory q.observer.2 ∧ q.observer.2.length = n ∧
      q.observer.1 = observer.after memory q.observer.2 := by
  induction n generalizing q with
  | zero =>
    rw [Reaches.zero.mp h]
    exact ⟨.refl _, rfl, rfl⟩
  | succ n ih =>
    obtain ⟨before, hbefore, hnext⟩ := Reaches.succ.mp h
    obtain ⟨hrecorded, hlength, hmemory⟩ := ih hbefore
    subst hlength
    cases passage_iff.mpr hnext with
    | onward => exact ⟨hrecorded.push _, by simp, by simp [hmemory]⟩

/-- **Every way an integration can go is accounted for.** -/
theorem Journey.account {budget : Nat} {report : Report R (σ × List (Arrival R))}
    (h : Journey p observer.logging (memory, []) finish k budget report) :
    Account p finish k report report.observer.2 ∧
      report.observer.1 = observer.after memory report.observer.2 := by
  cases h with
  | refused hready => exact ⟨.of_refusal hready, rfl⟩
  | @last f scheme n q _ hready hn hreach hlast =>
    obtain ⟨hrecorded, hlength, hmemory⟩ := hreach.recorded
    subst hlength
    cases passage_iff.mpr hlast with
    | empty hnone =>
      -- A sample to start from is never lost.
      obtain ⟨last, hsome⟩ := hreach.last? (exists_last_of_ready hready)
      exact nomatch hnone.symm.trans hsome
    | reached hsome hend => exact ⟨.of_ok hrecorded rfl rfl hsome rfl, hmemory⟩
    | @failure last e hsome hend hstep =>
      cases e with
      | fault fault => exact ⟨.of_fault hrecorded rfl, hmemory⟩
      | error cause => exact ⟨.of_step hrecorded hready hsome hstep rfl, hmemory⟩
    | @stopped last state sample hsome hend hstep hsample hverdict =>
      -- The sample that the observer stopped at is recorded all the same.
      have hpushed := hrecorded.push sample
      refine ⟨.of_ok hpushed rfl ?_ Trajectory.last?_push rfl, ?_⟩
      · simp [Progress.report]
      · simp [Progress.report, hmemory]

end Invariant

/-! ### Integrations -/

/-- **What an integration tells and what it leaves behind.** -/
theorem integrate_account {p : Problem R} {observer : Observer (Arrival R) σ} {memory : σ}
    {finish k : R} {budget : Nat} {report : Report R σ}
    (h : p.integrate observer memory finish k budget = some report) :
    Account p finish k report (p.events observer memory finish k budget) ∧
      report.observer = observer.after memory (p.events observer memory finish k budget) := by
  rw [integrate_logging p observer memory [] finish k budget] at h
  obtain ⟨logged, hlogged, rfl⟩ := Option.map_eq_some_iff.mp h
  obtain ⟨haccount, hmemory⟩ := (integrate_eq_some.mp hlogged).account
  rw [Problem.events, hlogged]
  exact ⟨⟨haccount.toRecorded, haccount.ended, haccount.refused, haccount.failed, rfl, rfl, rfl⟩,
    hmemory⟩

/-- The decay `u' = -u` from one, by forward Euler steps. -/
def decay : Problem R where
  field? := some fun u _ => .ok u.neg
  scheme? := some (.multistep (Multistep.ofPreset .forwardEuler))
  trajectory := ⟨#[⟨[Scalar.ofNat 1], Scalar.ofNat 0⟩]⟩
  minimiser := .new

/-- The decay over doubles, stopped after its second step, leaves such an account. -/
theorem integrate_account_decay :
    ∃ report : Report Float (Array (Arrival Float)),
      decay.integrate (.keeping 8 Arrival.step (some 2)) #[] 1 0.25 8 = some report ∧
        Account decay 1 0.25 report
          (decay.events (.keeping 8 Arrival.step (some 2)) #[] 1 0.25 8) := by
  have hsome : (decay.integrate (.keeping 8 Arrival.step (some 2)) #[] 1 0.25 8 :
      Option (Report Float (Array (Arrival Float)))).isSome = true := by decide +kernel
  obtain ⟨report, hreport⟩ := Option.isSome_iff_exists.mp hsome
  exact ⟨report, hreport, (integrate_account hreport).1⟩

end Stepwise.Ode
