import Stepwise.Proofs.Descent.Account
import Stepwise.Proofs.Ode.Account

/-!
# Observers only truncate

An observer has one thing to say in a run, and that is where to end it. What the run
does before that, it does under every observer: the events that it is told are the first
ones of those that a silent observer would be told, and if it never objects then the run
returns what it would have returned unobserved. If it objects, then what comes back
stands for the last event told, whatever would have become of the run afterwards.

The two runs are compared through a third, under the observer that remembers the same
and never objects (`Stepwise.Observer.patient`). Its states are of the same kind as those
of the observed run, and the two go through the same ones until they part. Where they
part the observer has objected, and the observed run ends. The patient run may go on, but
it only ever adds to what it has told. That much is true of all searches in rounds that
keep a list of events, and `Stepwise.rounds_eq_or_cut` is said of them; what is left to
show of a descent and of an integration is what a single round does.

What an objection comes to is a matter of one run, not of two. In a descent it ends the
run at the iterate, but a gradient as good as zero still counts as convergence
(`Stepwise.Descent.Journey.stopped`). In an integration it ends the run after the sample
has been recorded (`Stepwise.Ode.Journey.stopped`), also if the time was reached with it.
-/

namespace Stepwise

/-! ### Searches that keep events -/

section Searches

variable {ε σ α : Type} (kept : σ → List ε) (kept' : α → List ε)

/-- The state or the answer that a round comes to has kept at least these events. -/
def Round.Keeps (events : List ε) : Round σ α → Prop :=
  Round.All (events <+: kept ·) (events <+: kept' ·)

/-- One search does what another does, round by round, or it ends with an event that the
other keeps too. -/
structure Cuts (Objects : σ → ε → Prop) (round round' : Nat → σ → Round σ α) : Prop where
  /-- The other search never drops an event. -/
  keeps : ∀ n state events, events <+: kept state → (round n state).Keeps kept kept' events
  /-- A round is the same or the last. -/
  same_or_last : ∀ n state, round' n state = round n state ∨
    ∃ e answer, Objects state e ∧ round' n state = .done answer ∧
      kept' answer = kept state ++ [e] ∧ (round n state).Keeps kept kept' (kept state ++ [e])

variable {kept kept'} {Objects : σ → ε → Prop} {round round' : Nat → σ → Round σ α}

/-- **A search that is cut ends like the other one or with an objection**, and then the other
one has kept the events up to that. -/
theorem rounds_eq_or_cut (h : Cuts kept kept' Objects round round') (cap first : Nat)
    (state : σ) :
    rounds round' cap first state = rounds round cap first state ∨
      ∃ n < cap, ∃ here e answer, rounds round' n first state = .again here ∧ Objects here e ∧
        rounds round' cap first state = .done answer ∧ kept' answer = kept here ++ [e] ∧
        (rounds round cap first state).Keeps kept kept' (kept here ++ [e]) := by
  rcases rounds_eq_or_part round round' cap first state with
    hsame | ⟨n, hn, here, hthere, hhere, hpart⟩
  · exact .inl hsame
  · obtain ⟨e, answer, hobjects, hdone, hanswer, hkeeps⟩ :=
      (h.same_or_last (first + n) here).resolve_left hpart
    exact .inr ⟨n, hn, here, e, answer, hhere, hobjects,
      rounds_eq_done.mpr ⟨n, hn, here, hhere, hdone⟩, hanswer,
      rounds_all_of_round (fun i s => h.keeps i s _) hn hthere hkeeps⟩

/-- What is last among some events comes next after the others wherever they come first. -/
theorem last_of_prefix {events whole : List ε} {e : ε} (h : events ++ [e] <+: whole) :
    whole[events.length]? = some e ∧ events ++ [e] = whole.take (events.length + 1) := by
  have htake := List.prefix_iff_eq_take.mp h
  rw [List.length_append, List.length_singleton] at htake
  obtain ⟨rest, rfl⟩ := h
  exact ⟨by simp, htake⟩

end Searches

/-! ### Descents -/

namespace Descent

variable {R σ : Type} [Scalar R]

/-- An observer has no say in a minimisation but where it ends. -/
structure OnlyTruncates (m : Minimiser R) (observer : Observer (Visit R) σ) (memory : σ)
    (x₀ : Vec R) : Prop where
  /-- What the observer is told is what a silent one is told, up to some event. -/
  told : m.events observer memory x₀ <+: m.events .silent () x₀
  /-- If it never objects, then nothing is different. -/
  unopposed : (∀ v ∈ observer.answers memory (m.events observer memory x₀), v = .proceed) →
    (m.run observer memory x₀).outcome = (m.run .silent () x₀).outcome ∧
      m.events observer memory x₀ = m.events .silent () x₀
  /-- If it objects to event number `i`, then that is the last one and the outcome is the
  iterate of that number, as the silent observer is told of it. -/
  stopped : ∀ i, (observer.answers memory (m.events observer memory x₀))[i]? = some .stop →
    ∃ e, (m.events .silent () x₀)[i]? = some e ∧ e.iter = i ∧
      m.events observer memory x₀ = (m.events .silent () x₀).take (i + 1) ∧
      (m.run observer memory x₀).outcome =
        .ok (e.solution (if e.gradientNorm ≤ m.settings.epsilon then .converged else .stopped))

variable {f : Oracle R} {s : Settings R} {observer : Observer (Visit R) σ} {memory : σ}
  {x₀ : Vec R}

/-! #### One run -/

/-- **A descent ends at the iterate that its observer objects to.** -/
theorem Journey.stopped {report : Report R (σ × List (Visit R))}
    (h : Journey f s observer.logging (memory, []) x₀ report) {i : Nat}
    (hstop : (observer.answers memory report.observer.2)[i]? = some .stop) :
    ∃ events e, report.observer.2 = events ++ [e] ∧ events.length = i ∧ e.iter = i ∧
      report.outcome =
        .ok (e.solution (if e.gradientNorm ≤ s.epsilon then .converged else .stopped)) := by
  cases h with
  | start hstart => exact nomatch hstop
  | cap hreach =>
    obtain ⟨hcourse, -, -⟩ := hreach.course
    exact absurd hstop (Observer.ne_stop hcourse.proceed i)
  | last hn hreach hlast =>
    obtain ⟨hcourse, hlength, hmemory⟩ := hreach.course
    cases passage_iff.mpr hlast with
    | fault hobserve => exact absurd hstop (Observer.ne_stop hcourse.proceed i)
    | failure hobserve hending hmove =>
      -- The last event has been answered like the others, or the way on would not be tried.
      obtain ⟨-, hverdict⟩ := Observer.eq_length_of_stop hcourse.proceed hstop
      rw [Observer.logging_verdict, hmemory, hverdict] at hending
      exact nomatch (ending?_eq_none.mp hending).2
    | @ending gradient e ending hobserve hending =>
      obtain ⟨rfl, -⟩ := Observer.eq_length_of_stop hcourse.proceed hstop
      obtain ⟨-, hvisit⟩ := observe_iterate hreach.iterate_eq hobserve
      obtain ⟨here, g, objective, -, -, -, rfl⟩ := visit_eq_ok.mp hvisit
      refine ⟨_, _, rfl, rfl, hlength.symm, ?_⟩
      rcases ending?_eq_some.mp hending with ⟨hle, rfl⟩ | ⟨hle, -, rfl⟩
      · rw [if_pos hle]
      · rw [if_neg hle]

/-! #### Two runs -/

/-- A round drops no event. -/
theorem Passage.keeps {n : Nat} {p : Progress R (σ × List (Visit R))}
    {r : Round (Progress R (σ × List (Visit R))) (Report R (σ × List (Visit R)))}
    (h : Passage f s observer.logging n p r) {events : List (Visit R)}
    (hevents : events <+: p.observer.2) :
    r.Keeps (·.observer.2) (·.observer.2) events := by
  cases h with
  | fault hobserve => exact hevents
  | ending hobserve hending => exact hevents.trans (List.prefix_append _ _)
  | failure hobserve hending hmove => exact hevents.trans (List.prefix_append _ _)
  | onward hobserve hending hmove => exact hevents.trans (List.prefix_append _ _)

/-- A round under an observer is the round under the patient one, unless the observer
objects to the iterate and the gradient does not end the descent anyway. -/
theorem next_eq_or_stopped (f : Oracle R) (s : Settings R) (observer : Observer (Visit R) σ)
    (n : Nat) (p : Progress R (σ × List (Visit R))) :
    p.next f s observer.logging n = p.next f s observer.patient.logging n ∨
      ∃ e report, (observer p.observer.1 e).1 = .stop ∧
        p.next f s observer.logging n = .done report ∧
        report.observer.2 = p.observer.2 ++ [e] ∧
        (p.next f s observer.patient.logging n).Keeps (·.observer.2) (·.observer.2)
          (p.observer.2 ++ [e]) := by
  obtain ⟨r, hr⟩ : ∃ r, p.next f s observer.patient.logging n = r := ⟨_, rfl⟩
  rw [hr]
  -- An objection makes a difference only where the gradient has not ended the descent.
  have hstopped {gradient : Vec R} {e : Visit R}
      (hobserve : p.standing.observe f s n = .ok (gradient, e)) (hle : ¬e.gradientNorm ≤ s.epsilon)
      (hstop : (observer p.observer.1 e).1 = .stop) :
      p.next f s observer.logging n = .done ⟨.ok (e.solution .stopped), _, _⟩ :=
    passage_iff.mp (.ending hobserve (ending?_eq_some.mpr (.inr ⟨hle, hstop, rfl⟩)))
  cases passage_iff.mpr hr with
  | fault hobserve => exact .inl (passage_iff.mp (.fault hobserve))
  | ending hobserve hending =>
    rcases ending?_eq_some.mp hending with ⟨hle, rfl⟩ | ⟨-, hstop, -⟩
    · exact .inl (passage_iff.mp (.ending hobserve (ending?_eq_some.mpr (.inl ⟨hle, rfl⟩))))
    · exact nomatch hstop
  | @failure gradient e entries failure hobserve hending hmove =>
    obtain ⟨hle, -⟩ := ending?_eq_none.mp hending
    cases hverdict : (observer p.observer.1 e).1 with
    | stop => exact .inr ⟨e, _, hverdict, hstopped hobserve hle hverdict, rfl, List.prefix_rfl⟩
    | proceed =>
      have hending' := ending?_eq_none.mpr ⟨hle, hverdict⟩
      exact .inl (passage_iff.mp (.failure hobserve hending' hmove))
  | @onward gradient e entries next hobserve hending hmove =>
    obtain ⟨hle, -⟩ := ending?_eq_none.mp hending
    cases hverdict : (observer p.observer.1 e).1 with
    | stop => exact .inr ⟨e, _, hverdict, hstopped hobserve hle hverdict, rfl, List.prefix_rfl⟩
    | proceed =>
      have hending' := ending?_eq_none.mpr ⟨hle, hverdict⟩
      exact .inl (passage_iff.mp (.onward hobserve hending' hmove))

/-- A descent under an observer is the one under the patient observer, cut. -/
theorem cuts_next (f : Oracle R) (s : Settings R) (observer : Observer (Visit R) σ) :
    Cuts (·.observer.2) (·.observer.2) (fun p e => (observer p.observer.1 e).1 = .stop)
      (Progress.next f s observer.patient.logging) (Progress.next f s observer.logging) where
  keeps _ _ _ hevents := (passage_iff.mpr rfl).keeps hevents
  same_or_last := next_eq_or_stopped f s observer

/-- **A descent under an observer is the one under the patient observer**, or it is told
no more and the observer has objected. -/
theorem descend_eq_or_stopped (f : Oracle R) (s : Settings R) (observer : Observer (Visit R) σ)
    (memory : σ) (x₀ : Vec R) :
    descend f s observer.logging (memory, []) x₀ =
        descend f s observer.patient.logging (memory, []) x₀ ∨
      (descend f s observer.logging (memory, []) x₀).observer.2 <+:
          (descend f s observer.patient.logging (memory, []) x₀).observer.2 ∧
        Verdict.stop ∈ observer.answers memory
          (descend f s observer.logging (memory, []) x₀).observer.2 := by
  cases hstart : Guide.start f s.method x₀ with
  | error e =>
    left
    simp only [descend, hstart]
  | ok guide =>
    rcases rounds_eq_or_cut (cuts_next f s observer) s.maxIters 0 ⟨⟨x₀, guide⟩, (memory, []), #[]⟩
      with hsame | ⟨n, -, p, e, report, hreach, hstop, hdone, hreport, hkeeps⟩
    · left
      simp only [descend, hstart, hsame]
    · right
      obtain ⟨-, -, hmemory⟩ := Reaches.course ⟨guide, hstart, hreach⟩
      simp only [descend, hstart, hdone, hreport]
      refine ⟨?_, ?_⟩
      · split
        · rename_i whole hwhole
          rwa [hwhole] at hkeeps
        · rename_i q hq
          rwa [hq] at hkeeps
      · simp [Observer.answers_concat, ← hmemory, hstop]

/-! #### Minimisations -/

/-- Silence and patience are the same to a minimisation. -/
theorem run_patient (m : Minimiser R) (observer : Observer (Visit R) σ) (memory : σ)
    (x₀ : Vec R) :
    (m.run observer.patient memory x₀).outcome = (m.run .silent () x₀).outcome ∧
      m.events observer.patient memory x₀ = m.events .silent () x₀ := by
  have hrun : m.run .silent () x₀ = (m.run observer.patient memory x₀).mapObserver fun _ => () :=
    run_mapObserver (g := fun _ => ()) (fun _ _ => rfl) m memory x₀
  have hlogging : m.run Observer.silent.logging ((), []) x₀ =
      (m.run observer.patient.logging (memory, []) x₀).mapObserver fun kept => ((), kept.2) :=
    run_mapObserver (g := fun kept => ((), kept.2)) (fun _ _ => rfl) m (memory, []) x₀
  exact ⟨(congrArg Report.outcome hrun).symm, (congrArg (·.observer.2) hlogging).symm⟩

/-- A minimiser that is ready works by its descent. -/
theorem run_eq_descend {m : Minimiser R} (horacle : m.oracle = .ok f)
    (observer : Observer (Visit R) σ) (memory : σ) (x₀ : Vec R) :
    (m.run observer memory x₀).outcome =
        (descend f m.settings observer.logging (memory, []) x₀).outcome ∧
      m.events observer memory x₀ =
        (descend f m.settings observer.logging (memory, []) x₀).observer.2 := by
  rw [run_logging m observer memory [] x₀, Minimiser.events]
  simp [Minimiser.run, horacle, Report.mapObserver]

/-- A minimisation under an observer is the one under the patient observer, or it is told no
more and the observer has objected. -/
theorem run_eq_or_stopped (m : Minimiser R) (observer : Observer (Visit R) σ) (memory : σ)
    (x₀ : Vec R) :
    ((m.run observer memory x₀).outcome = (m.run observer.patient memory x₀).outcome ∧
        m.events observer memory x₀ = m.events observer.patient memory x₀) ∨
      m.events observer memory x₀ <+: m.events observer.patient memory x₀ ∧
        Verdict.stop ∈ observer.answers memory (m.events observer memory x₀) := by
  cases horacle : m.oracle with
  | error e =>
    -- Nothing has begun, so there is nothing to interrupt.
    left
    simp [Minimiser.events, Minimiser.run, horacle]
  | ok f =>
    obtain ⟨houtcome, hevents⟩ := run_eq_descend horacle observer memory x₀
    obtain ⟨houtcome', hevents'⟩ := run_eq_descend horacle observer.patient memory x₀
    rw [houtcome, hevents, houtcome', hevents']
    refine (descend_eq_or_stopped f m.settings observer memory x₀).imp_left fun hsame => ?_
    rw [hsame]
    exact ⟨rfl, rfl⟩

/-- A minimisation ends at the iterate that its observer objects to. -/
theorem run_stopped {m : Minimiser R} {i : Nat}
    (hstop : (observer.answers memory (m.events observer memory x₀))[i]? = some .stop) :
    ∃ events e, m.events observer memory x₀ = events ++ [e] ∧ events.length = i ∧ e.iter = i ∧
      (m.run observer memory x₀).outcome = .ok
        (e.solution (if e.gradientNorm ≤ m.settings.epsilon then .converged else .stopped)) := by
  cases horacle : m.oracle with
  | error e =>
    simp [Minimiser.events, Minimiser.run, horacle] at hstop
  | ok f =>
    obtain ⟨houtcome, hevents⟩ := run_eq_descend horacle observer memory x₀
    rw [hevents] at hstop ⊢
    rw [houtcome]
    exact (journey_descend ..).stopped hstop

/-- **An observer has no say in a minimisation but where it ends.** -/
theorem onlyTruncates (m : Minimiser R) (observer : Observer (Visit R) σ) (memory : σ)
    (x₀ : Vec R) : OnlyTruncates m observer memory x₀ := by
  have htwo := run_eq_or_stopped m observer memory x₀
  obtain ⟨houtcome, hevents⟩ := run_patient m observer memory x₀
  rw [houtcome, hevents] at htwo
  have htold : m.events observer memory x₀ <+: m.events .silent () x₀ := by
    rcases htwo with ⟨-, hsame⟩ | ⟨hfewer, -⟩
    · rw [hsame]
    · exact hfewer
  refine ⟨htold, fun hproceed => ?_, fun i hstop => ?_⟩
  · exact htwo.resolve_right fun h => Observer.stop_notMem hproceed h.2
  · obtain ⟨events, e, hlog, rfl, hiter, hend⟩ := run_stopped hstop
    rw [hlog] at htold ⊢
    obtain ⟨hlast, htake⟩ := last_of_prefix htold
    exact ⟨e, hlast, hiter, htake, hend⟩

end Descent

/-! ### Integrations -/

namespace Ode

variable {R σ : Type} [Scalar R]

/-- An observer has no say in an integration but where it ends. -/
structure OnlyTruncates (p : Problem R) (observer : Observer (Arrival R) σ) (memory : σ)
    (finish k : R) (budget : Nat) (unobserved : Report R Unit) (observed : Report R σ) : Prop where
  /-- What the observer is told is what a silent one is told, up to some event. -/
  told : p.events observer memory finish k budget <+: p.events .silent () finish k budget
  /-- If it never objects, then nothing is different. -/
  unopposed :
    (∀ v ∈ observer.answers memory (p.events observer memory finish k budget), v = .proceed) →
      observed.outcome = unobserved.outcome ∧ observed.trajectory = unobserved.trajectory ∧
        p.events observer memory finish k budget = p.events .silent () finish k budget
  /-- If it objects to an event after `i` others, then that is the last one, and the
  trajectory is cut after the sample that it is about. -/
  stopped : ∀ i,
    (observer.answers memory (p.events observer memory finish k budget))[i]? = some .stop →
      ∃ e, (p.events .silent () finish k budget)[i]? = some e ∧ e.step = i + 1 ∧
        p.events observer memory finish k budget =
          (p.events .silent () finish k budget).take (i + 1) ∧
        observed.outcome = .ok ⟨.stopped, i + 1, e.sample.time⟩ ∧
        observed.trajectory.samples.toList =
          unobserved.trajectory.samples.toList.take (p.trajectory.size + (i + 1))

variable {p : Problem R} {f : Field R} {scheme : Scheme R} {observer : Observer (Arrival R) σ}
  {memory : σ} {finish k : R}

/-! #### One run -/

/-- The observer has objected to none of the steps that an integration has left behind. -/
theorem Reaches.proceed {n : Nat} {q : Progress R (σ × List (Arrival R))}
    (h : Reaches p f scheme observer.logging (memory, []) finish k n q) :
    ∀ v ∈ observer.answers memory q.observer.2, v = .proceed := by
  induction n generalizing q with
  | zero =>
    rw [Reaches.zero.mp h]
    exact fun v hv => nomatch hv
  | succ n ih =>
    obtain ⟨before, hbefore, hnext⟩ := Reaches.succ.mp h
    obtain ⟨-, -, hmemory⟩ := hbefore.recorded
    cases passage_iff.mpr hnext with
    | onward hlast hend hstep hsample hverdict =>
      rw [Observer.logging_verdict, hmemory] at hverdict
      intro v hv
      rw [Observer.logging_memory, Observer.answers_concat] at hv
      rcases List.mem_append.mp hv with hv | hv
      · exact ih hbefore v hv
      · rw [List.mem_singleton.mp hv]
        exact hverdict

/-- **An integration ends with the sample that its observer objects to.** -/
theorem Journey.stopped {budget : Nat} {report : Report R (σ × List (Arrival R))}
    (h : Journey p observer.logging (memory, []) finish k budget report) {i : Nat}
    (hstop : (observer.answers memory report.observer.2)[i]? = some .stop) :
    ∃ events e, report.observer.2 = events ++ [e] ∧ events.length = i ∧ e.step = i + 1 ∧
      report.outcome = .ok ⟨.stopped, i + 1, e.sample.time⟩ := by
  cases h with
  | refused hready => exact nomatch hstop
  | last hready hn hreach hlast =>
    obtain ⟨-, hlength, -⟩ := hreach.recorded
    cases passage_iff.mpr hlast with
    | empty hnone => exact absurd hstop (Observer.ne_stop hreach.proceed i)
    | reached hsome hend => exact absurd hstop (Observer.ne_stop hreach.proceed i)
    | failure hsome hend hstep =>
      rw [Progress.stepFailed_observer] at hstop
      exact absurd hstop (Observer.ne_stop hreach.proceed i)
    | stopped hsome hend hstep hsample hverdict =>
      obtain ⟨rfl, -⟩ := Observer.eq_length_of_stop hreach.proceed hstop
      subst hlength
      exact ⟨_, _, rfl, rfl, rfl, rfl⟩

/-! #### Two runs -/

/-- A round drops no event. -/
theorem Passage.keeps {m : Descent.Minimiser R} {n : Nat}
    {q : Progress R (σ × List (Arrival R))}
    {r : Round (Progress R (σ × List (Arrival R))) (Report R (σ × List (Arrival R)))}
    (h : Passage f scheme m observer.logging finish k n q r) {events : List (Arrival R)}
    (hevents : events <+: q.observer.2) :
    r.Keeps (·.observer.2) (·.observer.2) events := by
  cases h with
  | empty hlast => exact hevents
  | reached hlast hend => exact hevents
  | failure hlast hend hstep =>
    rw [Round.Keeps, Round.All, Progress.stepFailed_observer]
    exact hevents
  | stopped hlast hend hstep hsample hverdict => exact hevents.trans (List.prefix_append _ _)
  | onward hlast hend hstep hsample hverdict => exact hevents.trans (List.prefix_append _ _)

/-- A round under an observer is the round under the patient one, unless the observer
objects to the new sample. -/
theorem next_eq_or_stopped (f : Field R) (scheme : Scheme R) (m : Descent.Minimiser R)
    (observer : Observer (Arrival R) σ) (finish k : R) (n : Nat)
    (q : Progress R (σ × List (Arrival R))) :
    q.next f scheme m observer.logging finish k n =
        q.next f scheme m observer.patient.logging finish k n ∨
      ∃ e report, (observer q.observer.1 e).1 = .stop ∧
        q.next f scheme m observer.logging finish k n = .done report ∧
        report.observer.2 = q.observer.2 ++ [e] ∧
        (q.next f scheme m observer.patient.logging finish k n).Keeps (·.observer.2)
          (·.observer.2) (q.observer.2 ++ [e]) := by
  obtain ⟨r, hr⟩ : ∃ r, q.next f scheme m observer.patient.logging finish k n = r := ⟨_, rfl⟩
  rw [hr]
  cases passage_iff.mpr hr with
  | empty hlast => exact .inl (passage_iff.mp (.empty hlast))
  | reached hlast hend => exact .inl (passage_iff.mp (.reached hlast hend))
  | failure hlast hend hstep => exact .inl (passage_iff.mp (.failure hlast hend hstep))
  | stopped hlast hend hstep hsample hverdict => exact nomatch hverdict
  | @onward last state sample hlast hend hstep hsample hpatient =>
    cases hverdict : (observer q.observer.1 ⟨n + 1, sample⟩).1 with
    | stop =>
      exact .inr ⟨_, _, hverdict,
        passage_iff.mp (.stopped hlast hend hstep hsample hverdict), rfl, List.prefix_rfl⟩
    | proceed => exact .inl (passage_iff.mp (.onward hlast hend hstep hsample hverdict))

/-- An integration under an observer is the one under the patient observer, cut. -/
theorem cuts_next (f : Field R) (scheme : Scheme R) (m : Descent.Minimiser R)
    (observer : Observer (Arrival R) σ) (finish k : R) :
    Cuts (·.observer.2) (·.observer.2) (fun q e => (observer q.observer.1 e).1 = .stop)
      (Progress.next f scheme m observer.patient.logging finish k)
      (Progress.next f scheme m observer.logging finish k) where
  keeps _ _ _ hevents := (passage_iff.mpr rfl).keeps hevents
  same_or_last := next_eq_or_stopped f scheme m observer finish k

/-- **An integration under an observer is the one under the patient observer**, or it is told
no more and the observer has objected. It comes to its end within the same budget. -/
theorem integrate_eq_or_stopped {budget : Nat} {whole : Report R (σ × List (Arrival R))}
    (h : p.integrate observer.patient.logging (memory, []) finish k budget = some whole) :
    ∃ report, p.integrate observer.logging (memory, []) finish k budget = some report ∧
      (report = whole ∨ report.observer.2 <+: whole.observer.2 ∧
        Verdict.stop ∈ observer.answers memory report.observer.2) := by
  cases hready : p.ready k with
  | error e =>
    refine ⟨whole, ?_, .inl rfl⟩
    simp only [Problem.integrate, hready] at h ⊢
    exact h
  | ok setup =>
    obtain ⟨f, scheme⟩ := setup
    rw [integrate_of_ready hready] at h
    simp only [integrate_of_ready hready]
    rcases rounds_eq_or_cut (cuts_next f scheme p.minimiser observer finish k) budget 0
      (p.start scheme (memory, []) finish k)
      with hsame | ⟨n, -, q, e, report, hreach, hstop, hdone, hreport, hkeeps⟩
    · exact ⟨whole, hsame.trans h, .inl rfl⟩
    · obtain ⟨-, -, hmemory⟩ := Reaches.recorded hreach
      refine ⟨report, hdone, .inr ⟨?_, ?_⟩⟩
      · rw [h] at hkeeps
        rw [hreport]
        exact hkeeps
      · simp [hreport, Observer.answers_concat, ← hmemory, hstop]

/-! #### Whole integrations -/

/-- Silence and patience are the same to an integration. -/
theorem integrate_patient {budget : Nat} {unobserved : Report R Unit}
    (h : p.integrate .silent () finish k budget = some unobserved)
    (observer : Observer (Arrival R) σ) (memory : σ) :
    ∃ whole : Report R (σ × List (Arrival R)),
      p.integrate observer.patient.logging (memory, []) finish k budget = some whole ∧
        whole.outcome = unobserved.outcome ∧ whole.trajectory = unobserved.trajectory ∧
        whole.observer.2 = p.events .silent () finish k budget := by
  have hrun : p.integrate .silent () finish k budget =
      (p.integrate observer.patient.logging (memory, []) finish k budget).map
        (Report.mapObserver fun _ => ()) :=
    integrate_mapObserver (g := fun _ => ()) (fun _ _ => rfl) p (memory, []) finish k budget
  have hlogging : p.integrate Observer.silent.logging ((), []) finish k budget =
      (p.integrate observer.patient.logging (memory, []) finish k budget).map
        (Report.mapObserver fun kept => ((), kept.2)) :=
    integrate_mapObserver (g := fun kept => ((), kept.2)) (fun _ _ => rfl) p (memory, []) finish k
      budget
  rw [hrun] at h
  obtain ⟨whole, hwhole, rfl⟩ := Option.map_eq_some_iff.mp h
  refine ⟨whole, hwhole, rfl, rfl, ?_⟩
  rw [Problem.events, hlogging, hwhole]
  rfl

/-- **An observer has no say in an integration but where it ends.** -/
theorem onlyTruncates {budget : Nat} {unobserved : Report R Unit}
    (h : p.integrate .silent () finish k budget = some unobserved)
    (observer : Observer (Arrival R) σ) (memory : σ) :
    ∃ observed, p.integrate observer memory finish k budget = some observed ∧
      OnlyTruncates p observer memory finish k budget unobserved observed := by
  obtain ⟨whole, hwhole, houtcome, htrajectory, hevents⟩ := integrate_patient h observer memory
  obtain ⟨logged, hlogged, htwo⟩ := integrate_eq_or_stopped hwhole
  have hobserved : p.integrate observer memory finish k budget =
      some (logged.mapObserver Prod.fst) := by
    rw [integrate_logging p observer memory [] finish k budget, hlogged]
    rfl
  have hheard : p.events observer memory finish k budget = logged.observer.2 := by
    rw [Problem.events, hlogged]
    rfl
  have htold :
      p.events observer memory finish k budget <+: p.events .silent () finish k budget := by
    rw [hheard, ← hevents]
    rcases htwo with rfl | ⟨hfewer, -⟩
    · exact List.prefix_rfl
    · exact hfewer
  refine ⟨_, hobserved, htold, fun hproceed => ?_, fun i hstop => ?_⟩
  · rw [hheard] at hproceed ⊢
    rcases htwo with rfl | ⟨-, hstop⟩
    · exact ⟨houtcome, htrajectory, hevents⟩
    · exact absurd hstop (Observer.stop_notMem hproceed)
  · rw [hheard] at hstop
    obtain ⟨events, e, hlog, rfl, hstep, hend⟩ := (integrate_eq_some.mp hlogged).stopped hstop
    -- Both trajectories are the old one with the samples that were told of.
    have hcut := (integrate_eq_some.mp hlogged).account.1.samples_eq
    have hall := (integrate_eq_some.mp hwhole).account.1.samples_eq
    rw [htrajectory, hevents] at hall
    rw [hlog] at hcut
    rw [hheard, hlog] at htold ⊢
    obtain ⟨hlast, htake⟩ := last_of_prefix htold
    refine ⟨e, hlast, hstep, htake, hend, ?_⟩
    change logged.trajectory.samples.toList = _
    rw [hcut, hall, htake]
    simp [Trajectory.size, List.take_append, List.map_take]

end Ode

/-! ### Both -/

/-- **Observers only truncate.** A minimisation or an integration under an observer is the
one that nobody observes, up to the first event that the observer objects to. -/
theorem observers_only_truncate {R σ τ : Type} [Scalar R] :
    (∀ (m : Descent.Minimiser R) (observer : Observer (Descent.Visit R) σ) (memory : σ)
        (x₀ : Vec R), Descent.OnlyTruncates m observer memory x₀) ∧
      ∀ (p : Ode.Problem R) (observer : Observer (Ode.Arrival R) τ) (memory : τ) (finish k : R)
        (budget : Nat) (unobserved : Ode.Report R Unit),
        p.integrate .silent () finish k budget = some unobserved →
          ∃ observed, p.integrate observer memory finish k budget = some observed ∧
            Ode.OnlyTruncates p observer memory finish k budget unobserved observed := by
  refine ⟨fun m observer memory x₀ => Descent.onlyTruncates m observer memory x₀, ?_⟩
  intro p observer memory finish k budget unobserved hunobserved
  exact Ode.onlyTruncates hunobserved observer memory

/-- A minimisation of the square that halves the point twice, which is not enough. -/
def halving : Descent.Minimiser Float :=
  Descent.halfway.withSettings
    { Descent.halfway.settings with trivialStep := Scalar.ratio 1 4, maxIters := 2 }

/-- Halving and the decay over doubles, with observers that object to the second event: the
descent ends at its iterate number one, though it fails unobserved, and the decay ends with
two of its four new samples. -/
theorem observers_only_truncate_halving_decay :
    (∃ e : Descent.Visit Float, e.iter = 1 ∧
        (halving.events .silent () [3, -4])[1]? = some e ∧
        (halving.run (.keeping 8 Descent.Visit.iter (some 1)) #[] [3, -4]).outcome =
          .ok (e.solution .stopped) ∧
        (halving.run .silent () [3, -4]).outcome.isOk = false) ∧
      ∃ (unobserved : Ode.Report Float Unit)
        (observed : Ode.Report Float (Array (Ode.Arrival Float))) (time : Float),
        Ode.decay.integrate .silent () 1 0.25 8 = some unobserved ∧
          Ode.decay.integrate (.keeping 8 Ode.Arrival.step (some 2)) #[] 1 0.25 8 = some observed ∧
          observed.outcome = .ok ⟨.stopped, 2, time⟩ ∧
          observed.trajectory.samples.toList = unobserved.trajectory.samples.toList.take 3 := by
  obtain ⟨hdescent, hintegration⟩ := observers_only_truncate (R := Float)
    (σ := Array (Descent.Visit Float)) (τ := Array (Ode.Arrival Float))
  constructor
  · have hstop : ((Observer.keeping 8 Descent.Visit.iter (some 1)).answers #[]
        (halving.events (.keeping 8 Descent.Visit.iter (some 1)) #[] [3, -4]))[1]? =
          some .stop := by decide +kernel
    obtain ⟨e, he, hiter, -, hend⟩ := (hdescent _ _ _ _).stopped 1 hstop
    have hfar : ((halving.events .silent () [3, -4])[1]?.all fun e =>
        !decide (e.gradientNorm ≤ halving.settings.epsilon)) = true := by decide +kernel
    rw [he] at hfar
    rw [if_neg (by simpa using hfar)] at hend
    exact ⟨e, hiter, he, hend, by decide +kernel⟩
  · have hsome : (Ode.decay.integrate .silent () 1 0.25 8 :
        Option (Ode.Report Float Unit)).isSome = true := by decide +kernel
    obtain ⟨unobserved, hunobserved⟩ := Option.isSome_iff_exists.mp hsome
    obtain ⟨observed, hobserved, htruncates⟩ :=
      hintegration _ (.keeping 8 Ode.Arrival.step (some 2)) #[] _ _ _ _ hunobserved
    have hstop : ((Observer.keeping 8 Ode.Arrival.step (some 2)).answers #[]
        (Ode.decay.events (.keeping 8 Ode.Arrival.step (some 2)) #[] (1 : Float) 0.25 8))[1]? =
          some .stop := by decide +kernel
    obtain ⟨e, -, -, -, hend, htake⟩ := htruncates.stopped 1 hstop
    exact ⟨unobserved, observed, e.sample.time, hunobserved, hobserved, hend, htake⟩

end Stepwise
