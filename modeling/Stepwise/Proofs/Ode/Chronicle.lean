import Stepwise.Proofs.Descent.Chronicle
import Stepwise.Proofs.Ode.Account

/-!
# What the journal of an integration tells

An integration that is not refused notes how it starts and how it ends. In between it notes
nothing of its own: an explicit step is computed in silence, and what stands there otherwise are
the journals of the minimisations that the implicit steps make
(`Stepwise.Ode.Scheme.Solves`), one after the other. There is one for every sample that the
observer is told of, and one for the step that has failed, if one has; each of them is made from
the samples there are after the events before it (`Stepwise.Ode.Solved`).

The invariant is `Stepwise.Ode.Noted`. A step that is attempted adds the journal of its
minimisation (`Stepwise.Ode.Noted.attempt`), and an event that is told adds nothing
(`Stepwise.Ode.Noted.tell`). So the journals of both kinds of runs can be read without the runs:
`Stepwise.journals_tell`.
-/

namespace Stepwise.Ode

variable {R σ : Type} [Scalar R]

/-! ### One step -/

/-- The minimisation that an implicit step makes: that of the square of its residual, from where
it starts, observed by nobody. -/
inductive Scheme.Solves (f : Field R) (h : Trajectory R) (last : Sample R) (k : R)
    (m : Descent.Minimiser R) : Scheme R → Descent.Report R Unit → Prop
  /-- A multistep scheme looks for the next state, from the last one. -/
  | multistep {s : Multistep R} {known : Vec R}
      (hknown : s.known f k last.state.length (h.recent s.depth) = .ok known) :
      Solves f h last k m (.multistep s)
        ((m.withObjective
          { value := Multistep.residual f known (k * s.leading) (last.time + k) }).run
            .silent () last.state)
  /-- A Runge–Kutta scheme looks for the stages and the next state, from zeros and the last one. -/
  | rungeKutta {s : Tableau R} :
      Solves f h last k m (.rungeKutta s)
        ((m.withObjective { value := s.residual f last k }).run .silent () (s.stackedStart last))

section Steps

variable {f : Field R} {h : Trajectory R} {last : Sample R} {k : R} {m : Descent.Minimiser R}
  {scheme : Scheme R}

/-- An explicit step notes nothing. -/
theorem journal_of_explicit (hexplicit : scheme.isExplicit = true) :
    (scheme.step f h last k m).journal = #[] := by
  cases scheme with
  | multistep s =>
    simp only [Scheme.isExplicit] at hexplicit
    simp only [Scheme.step, Multistep.step, hexplicit, if_true]
    split <;> rfl
  | rungeKutta s =>
    simp only [Scheme.isExplicit] at hexplicit
    simp only [Scheme.step, Tableau.step, hexplicit, if_true]
    rfl

/-- **An implicit step notes what its minimisation notes.** -/
theorem exists_solves (himplicit : scheme.isExplicit = false)
    (hreturns : ∀ fault, (scheme.step f h last k m).outcome ≠ .error (.fault fault)) :
    ∃ solve, scheme.Solves f h last k m solve ∧
      (scheme.step f h last k m).journal = solve.journal := by
  cases scheme with
  | multistep s =>
    simp only [Scheme.isExplicit] at himplicit
    simp only [Scheme.step, Multistep.step, himplicit] at hreturns ⊢
    cases hknown : s.known f k last.state.length (h.recent s.depth) with
    | error fault =>
      rw [hknown] at hreturns
      exact absurd rfl (hreturns fault)
    | ok known => exact ⟨_, .multistep hknown, rfl⟩
  | rungeKutta s =>
    simp only [Scheme.isExplicit] at himplicit
    simp only [Scheme.step, Tableau.step, himplicit]
    exact ⟨_, .rungeKutta, rfl⟩

end Steps

/-! ### All steps -/

section Rounds

/-- The minimisation of an implicit step from the samples that there are after some events. -/
def Solved (p : Problem R) (f : Field R) (scheme : Scheme R) (k : R) (told : List (Arrival R))
    (solve : Descent.Report R Unit) : Prop :=
  ∃ (h : Trajectory R) (last : Sample R),
    h.samples.toList = p.trajectory.samples.toList ++ told.map Arrival.sample ∧
      h.last? = some last ∧ scheme.Solves f h last k p.minimiser solve

/-- What a number of attempted steps have noted: nothing if they are explicit, otherwise the
journals of their minimisations, in order. -/
structure Noted (p : Problem R) (f : Field R) (scheme : Scheme R) (k : R)
    (events : List (Arrival R)) (attempts : Nat) (middle : List (Record R)) : Prop where
  /-- Explicit steps note nothing. -/
  silent : scheme.isExplicit = true → middle = []
  /-- Implicit steps note what their minimisations do, one for each step. -/
  solves : scheme.isExplicit = false → ∃ solves : List (Descent.Report R Unit),
    solves.length = attempts ∧ middle = solves.flatMap (·.journal.toList) ∧
      ∀ i (hi : i < solves.length), Solved p f scheme k (events.take i) solves[i]

variable {p : Problem R} {f : Field R} {scheme : Scheme R} {observer : Observer (Arrival R) σ}
  {memory : σ} {finish k : R} {events : List (Arrival R)} {middle : List (Record R)} {n : Nat}

theorem Noted.zero : Noted p f scheme k [] 0 [] where
  silent _ := rfl
  solves _ := ⟨[], rfl, rfl, nofun⟩

/-- **One more attempt adds the journal of its step.** -/
theorem Noted.attempt (h : Noted p f scheme k events events.length middle) {t : Trajectory R}
    {last : Sample R}
    (hsamples : t.samples.toList = p.trajectory.samples.toList ++ events.map Arrival.sample)
    (hlast : t.last? = some last)
    (hreturns : ∀ fault, (scheme.step f t last k p.minimiser).outcome ≠ .error (.fault fault)) :
    Noted p f scheme k events (events.length + 1)
      (middle ++ (scheme.step f t last k p.minimiser).journal.toList) where
  silent hexplicit := by
    rw [h.silent hexplicit, journal_of_explicit hexplicit]
    rfl
  solves himplicit := by
    obtain ⟨solves, hlength, rfl, hsolved⟩ := h.solves himplicit
    obtain ⟨solve, hsolves, hjournal⟩ := exists_solves himplicit hreturns
    refine ⟨solves ++ [solve], ?_, ?_, fun i hi => ?_⟩
    · rw [List.length_append, hlength]
      rfl
    · rw [List.flatMap_append, List.flatMap_singleton, hjournal]
    · rw [List.length_append, List.length_singleton] at hi
      rcases Nat.lt_succ_iff_lt_or_eq.mp hi with hlt | rfl
      · rw [List.getElem_append_left hlt]
        exact hsolved i hlt
      · rw [List.getElem_concat_length rfl, hlength, List.take_length]
        exact ⟨t, last, hsamples, hlast, hsolves⟩

/-- To tell an event adds nothing, once the step to it has been attempted. -/
theorem Noted.tell (h : Noted p f scheme k events (events.length + 1) middle) (e : Arrival R) :
    Noted p f scheme k (events ++ [e]) (events ++ [e]).length middle where
  silent := h.silent
  solves himplicit := by
    obtain ⟨solves, hlength, rfl, hsolved⟩ := h.solves himplicit
    refine ⟨solves, by rw [hlength, List.length_append]; rfl, rfl, fun i hi => ?_⟩
    rw [List.take_append_of_le_length (by omega)]
    exact hsolved i hi

/-- **After `n` steps the journal holds what they have noted**, and how the integration has
started. -/
theorem Reaches.noted {q : Progress R (σ × List (Arrival R))}
    (h : Reaches p f scheme observer.logging (memory, []) finish k n q) :
    ∃ middle, q.journal.toList =
        .integrationStarted finish k scheme.isExplicit p.trajectory.size :: middle ∧
      Noted p f scheme k q.observer.2 q.observer.2.length middle := by
  induction n generalizing q with
  | zero =>
    rw [Reaches.zero.mp h]
    exact ⟨[], rfl, .zero⟩
  | succ n ih =>
    obtain ⟨before, hbefore, hnext⟩ := Reaches.succ.mp h
    obtain ⟨middle, hjournal, hnoted⟩ := ih hbefore
    cases passage_iff.mpr hnext with
    | onward hlast hend hstep hsample hverdict =>
      refine ⟨_, ?_, (hnoted.attempt hbefore.recorded.1.samples_eq hlast ?_).tell _⟩
      · rw [Array.toList_append, hjournal, List.cons_append]
      · rw [hstep]
        exact nofun

end Rounds

/-! ### The account -/

/-- The number of steps that an integration has attempted: one for every event, and one more if it
has failed. -/
def attempts (events : List (Arrival R)) : Except (Failure (Error R)) (Completion R) → Nat
  | .ok _ => events.length
  | .error _ => events.length + 1

/-- What an integration notes after its first entry agrees with its events and its outcome. -/
structure Chronicle (p : Problem R) (f : Field R) (scheme : Scheme R) (k : R)
    (events : List (Arrival R)) (outcome : Except (Failure (Error R)) (Completion R))
    (middle : List (Record R)) (closing : Record R) : Prop where
  /-- In between there is what the steps have noted. -/
  noted : Noted p f scheme k events (attempts events outcome) middle
  /-- The last entry tells the completion, if there is one. -/
  ended : ∀ c, outcome = .ok c → closing = match c.ending with
    | .complete => .integrationFinished c.steps c.time
    | .stopped => .integrationStopped c.steps c.time
  /-- Otherwise it tells the step that has failed. -/
  failed : ∀ e, outcome = .error (.error e) →
    ∃ time cause, e = .step time cause ∧ closing = .stepFailed time cause

variable {p : Problem R} {f : Field R} {scheme : Scheme R} {observer : Observer (Arrival R) σ}
  {memory : σ} {finish k : R} {budget : Nat}

/-- **The journal of an integration that is not refused and ends without a fault tells its events
and its outcome.** -/
theorem Journey.exists_chronicle {report : Report R (σ × List (Arrival R))}
    (h : Journey p observer.logging (memory, []) finish k budget report)
    (hready : p.ready k = .ok (f, scheme))
    (hreturns : ∀ fault, report.outcome ≠ .error (.fault fault)) :
    ∃ middle closing, report.journal.toList =
        .integrationStarted finish k scheme.isExplicit p.trajectory.size ::
          middle ++ [closing] ∧
      Chronicle p f scheme k report.observer.2 report.outcome middle closing := by
  cases h with
  | refused hrefused => exact nomatch hrefused.symm.trans hready
  | @last f' scheme' n q _ hready' hn hreach hlast =>
    cases hready'.symm.trans hready
    obtain ⟨middle, hjournal, hnoted⟩ := hreach.noted
    have hsamples := hreach.recorded.1.samples_eq
    cases passage_iff.mpr hlast with
    | empty hnone =>
      -- A sample to start from is never lost.
      obtain ⟨last, hsome⟩ := hreach.last? (exists_last_of_ready hready)
      exact nomatch hnone.symm.trans hsome
    | @reached last hsome hend =>
      refine ⟨middle, .integrationFinished n last.time, ?_, hnoted, fun c hc => ?_, fun e he => ?_⟩
      · rw [Progress.report, Array.toList_append, hjournal]
      · cases hc
        rfl
      · cases he
    | @failure last e hsome hend hstep =>
      cases e with
      | fault fault => exact absurd rfl (hreturns fault)
      | error cause =>
        have hattempt := hnoted.attempt hsamples hsome fun fault hfault => by
          rw [hstep] at hfault
          cases hfault
        refine ⟨_, .stepFailed (nextTime finish k last.time) cause, ?_, hattempt, fun c hc => ?_,
          fun e he => ?_⟩
        · simp only [Progress.stepFailed, Progress.report, Array.toList_append, hjournal,
            List.cons_append]
        · cases hc
        · cases he
          exact ⟨_, _, rfl, rfl⟩
    | @stopped last state sample hsome hend hstep hsample hverdict =>
      have hattempt := hnoted.attempt hsamples hsome fun fault hfault => by
        rw [hstep] at hfault
        cases hfault
      refine ⟨_, .integrationStopped (n + 1) sample.time, ?_, hattempt.tell _, fun c hc => ?_,
        fun e he => ?_⟩
      · simp only [Progress.report, Array.toList_append, hjournal, List.cons_append]
      · cases hc
        rfl
      · cases he

/-- The same of the integration as its observer sees it. -/
theorem exists_chronicle_integrate {report : Report R σ}
    (hready : p.ready k = .ok (f, scheme))
    (hreport : p.integrate observer memory finish k budget = some report)
    (hreturns : ∀ fault, report.outcome ≠ .error (.fault fault)) :
    ∃ middle closing, report.journal.toList =
        .integrationStarted finish k scheme.isExplicit p.trajectory.size ::
          middle ++ [closing] ∧
      Chronicle p f scheme k (p.events observer memory finish k budget) report.outcome middle
        closing := by
  rw [integrate_logging p observer memory [] finish k budget] at hreport
  obtain ⟨logged, hlogged, rfl⟩ := Option.map_eq_some_iff.mp hreport
  rw [Problem.events, hlogged]
  exact (integrate_eq_some.mp hlogged).exists_chronicle hready hreturns

end Stepwise.Ode

namespace Stepwise

/-! ### Both -/

/-- **The journal of a run tells the same story as its events and its outcome**, if the run ends
without a fault. A minimisation notes its start first and its solution or its error last; in
between the iterates that it notes are those that the observer is told of, and every line search
along a ray that has landed is noted once, in order. An integration that is not refused notes its
start first and last that it is complete, that it was stopped, or which step has failed; in
between there is nothing if its scheme is explicit, and otherwise the journals of the
minimisations that its steps have made, one for every step attempted. -/
theorem journals_tell {R σ τ : Type} [Scalar R] :
    (∀ (m : Descent.Minimiser R) (objective : Objective R)
        (observer : Observer (Descent.Visit R) σ) (memory : σ) (x₀ : Vec R),
        m.settings.check = .ok () → m.objective? = some objective →
        (∀ fault, (m.run observer memory x₀).outcome ≠ .error (.fault fault)) →
        ∃ middle closing, (m.run observer memory x₀).journal.toList =
            .descentStarted m.settings.method m.settings.search x₀.length ::
              middle ++ [closing] ∧
          Descent.Chronicle (objective.complete m.settings.step) m.settings x₀
            (m.events observer memory x₀) (m.run observer memory x₀).outcome middle closing) ∧
      ∀ (p : Ode.Problem R) (f : Ode.Field R) (scheme : Ode.Scheme R)
        (observer : Observer (Ode.Arrival R) τ) (memory : τ) (finish k : R) (budget : Nat)
        (report : Ode.Report R τ), p.ready k = .ok (f, scheme) →
        p.integrate observer memory finish k budget = some report →
        (∀ fault, report.outcome ≠ .error (.fault fault)) →
        ∃ middle closing, report.journal.toList =
            .integrationStarted finish k scheme.isExplicit p.trajectory.size ::
              middle ++ [closing] ∧
          Ode.Chronicle p f scheme k (p.events observer memory finish k budget) report.outcome
            middle closing := by
  constructor
  · intro m objective observer memory x₀ hcheck hobjective hreturns
    exact Descent.exists_chronicle_run hcheck hobjective hreturns
  · intro p f scheme observer memory finish k budget report hready hreport hreturns
    exact Ode.exists_chronicle_integrate hready hreport hreturns

/-- A minimisation of the square by golden sections, not very precise ones. -/
def sectioning : Descent.Minimiser Float where
  settings := { (Descent.Settings.default : Descent.Settings Float) with
    method := .gradientDescent, search := .goldenSection, step := Scalar.ratio 1 2,
    delta := Scalar.ratio 1 4, maxIters := 16 }
  objective? := some Descent.square

/-- The decay by backward Euler steps, with a minimiser that one round is enough for. -/
def implicitDecay : Ode.Problem Float :=
  (Ode.decay.withScheme (.multistep (Ode.Multistep.ofPreset .backwardEuler))).withMinimiser
    (.ofSettings { (Descent.Settings.default : Descent.Settings Float) with
      method := .newton, search := .newton, step := Scalar.ratio 1 2, maxIters := 4 })

theorem implicitDecay_ready :
    implicitDecay.ready 0.25 = .ok (fun u _ => .ok u.neg,
      .multistep (Ode.Multistep.ofPreset .backwardEuler)) := by
  have hspacing : implicitDecay.trajectory.requireSpacing 0.25 = .ok () :=
    if_pos (by decide +kernel)
  exact Ode.ready_eq_ok_iff.mpr ⟨rfl, rfl, hspacing, rfl⟩

/-- Both over doubles, with observers that object: the minimisation at iterate number one, and the
decay after its second step, which has made its second minimisation. -/
theorem journals_tell_sectioning_decay :
    (∃ (middle : List (Record Float)) (objective gradientNorm : Float),
        (sectioning.run (.keeping 8 Descent.Visit.iter (some 1)) #[] [3, -4]).journal.toList =
          .descentStarted .gradientDescent .goldenSection 2 ::
            middle ++ [.descentFinished .stopped 1 objective gradientNorm] ∧
        middle.filter (·.message = "iterate") =
          (sectioning.events (.keeping 8 Descent.Visit.iter (some 1)) #[] [3, -4]).map
            Descent.Visit.record) ∧
      ∃ (report : Ode.Report Float (Array (Ode.Arrival Float))) (time : Float)
        (solves : List (Descent.Report Float Unit)),
        implicitDecay.integrate (.keeping 8 Ode.Arrival.step (some 2)) #[] 1 0.25 8 = some report ∧
          solves.length = 2 ∧ report.journal.toList =
            .integrationStarted 1 0.25 false 1 :: solves.flatMap (·.journal.toList) ++
              [.integrationStopped 2 time] := by
  obtain ⟨hdescent, hintegration⟩ := journals_tell (R := Float)
    (σ := Array (Descent.Visit Float)) (τ := Array (Ode.Arrival Float))
  constructor
  · have hcheck : sectioning.settings.check = .ok () :=
      Descent.check_eq_ok_iff.mpr (by decide +kernel)
    obtain ⟨sol, hsol, hfound⟩ : ∃ sol,
        (sectioning.run (.keeping 8 Descent.Visit.iter (some 1)) #[] [3, -4]).outcome = .ok sol ∧
          (sol.ending, sol.iters) = (.stopped, 1) := exists_of_toOption_map (by decide +kernel)
    obtain ⟨hending, hiters⟩ := Prod.mk.inj hfound
    obtain ⟨middle, closing, hjournal, hchronicle⟩ :=
      hdescent sectioning _ _ _ [3, -4] hcheck rfl fun fault => by rw [hsol]; exact nofun
    rw [hchronicle.finished sol hsol, hending, hiters] at hjournal
    exact ⟨middle, _, _, hjournal, hchronicle.iterates⟩
  · have hsome : ((implicitDecay.integrate (.keeping 8 Ode.Arrival.step (some 2)) #[] 1 0.25 8).map
        fun report => report.outcome.toOption.map fun c => (c.ending, c.steps)) =
          some (some (.stopped, 2)) := by decide +kernel
    obtain ⟨report, hreport, houtcome⟩ := Option.map_eq_some_iff.mp hsome
    obtain ⟨c, hc, hend⟩ := exists_of_toOption_map houtcome
    obtain ⟨hending, hsteps⟩ := Prod.mk.inj hend
    obtain ⟨middle, closing, hjournal, hchronicle⟩ := hintegration _ _ _ _ _ 1 _ 8 report
      implicitDecay_ready hreport fun fault => by rw [hc]; exact nofun
    have himplicit : (Ode.Scheme.multistep (Ode.Multistep.ofPreset .backwardEuler) :
        Ode.Scheme Float).isExplicit = false := by decide +kernel
    obtain ⟨solves, hlength, rfl, -⟩ := hchronicle.noted.solves himplicit
    obtain ⟨hcount, -⟩ := (Ode.integrate_account hreport).1.ended c hc
    rw [hchronicle.ended c hc, hending, hsteps, himplicit] at hjournal
    refine ⟨report, c.time, solves, hreport, ?_, hjournal⟩
    rw [hlength, hc, Ode.attempts, ← hcount, hsteps]

end Stepwise
