import Stepwise.Ode.Problem
import Stepwise.Proofs.Outcomes
import Stepwise.Proofs.Rounds
import Stepwise.Proofs.Observers

/-!
# The course of an integration

One round of an integration can come to five things: there is no sample to start from,
the time is reached, the step fails, the observer stops the run at the new sample, or
the new sample is recorded and the run goes on. They are the constructors of
`Stepwise.Ode.Passage`. A whole integration is refused before its first round, or some
rounds are followed by one that ends it (`Stepwise.Ode.Journey`).

An integration that is not refused has a sample to start from, and it never loses one
(`Stepwise.Ode.Reaches.last?`), so the first of the five does not occur.

As for descents, the observer's memory is the observer's business
(`Stepwise.Ode.integrate_mapObserver`).
-/

namespace Stepwise.Ode

variable {R σ τ : Type} [Scalar R]

/-! ### Trajectories -/

namespace Trajectory

omit [Scalar R]

variable {h : Trajectory R} {sample : Sample R}

@[simp] theorem toList_push : (h.push sample).samples.toList = h.samples.toList ++ [sample] := by
  simp [push]

@[simp] theorem last?_push : (h.push sample).last? = some sample := by
  simp [push, last?]

theorem last?_eq_getLast? : h.last? = h.samples.toList.getLast? := by
  simp [last?]

/-- The newest sample is the last one. -/
theorem recent_one (hlast : h.last? = some sample) : h.recent 1 = [sample] := by
  rw [last?_eq_getLast?, List.getLast?_eq_some_iff] at hlast
  obtain ⟨before, hbefore⟩ := hlast
  have hsize : h.size = before.length + 1 := by
    rw [size, ← Array.length_toList, hbefore, List.length_append, List.length_singleton]
  rw [recent, Array.toList_extract, hbefore, hsize, Nat.add_sub_cancel,
    List.extract_eq_take_drop, List.drop_left, Nat.add_sub_cancel_left]
  rfl

end Trajectory

/-- A trajectory that can be continued is not empty. -/
theorem exists_last_of_requireSpacing {h : Trajectory R} {k : R}
    (hspacing : h.requireSpacing k = .ok ()) : ∃ last, h.last? = some last := by
  rw [Trajectory.last?_eq_getLast?]
  cases hlist : h.samples.toList with
  | nil =>
    rw [Trajectory.requireSpacing, hlist] at hspacing
    split at hspacing <;> exact nomatch hspacing
  | cons first rest => exact ⟨_, List.getLast?_cons⟩

/-- A trajectory is continued with a positive step only. -/
theorem pos_of_requireSpacing {h : Trajectory R} {k : R}
    (hspacing : h.requireSpacing k = .ok ()) : Scalar.ofNat 0 < k := by
  unfold Trajectory.requireSpacing at hspacing
  split at hspacing
  · rename_i hstep
    exact of_decide_eq_true (Bool.and_eq_true_iff.mp hstep).1
  · exact nomatch hspacing

/-! ### One round -/

section Passages

variable (f : Field R) (scheme : Scheme R) (m : Descent.Minimiser R)
  (observer : Observer (Arrival R) σ) (finish k : R) (steps : Nat) (p : Progress R σ)

/-- What a round of an integration comes to after a number of steps. -/
inductive Passage : Round (Progress R σ) (Report R σ) → Prop
  /-- There is no sample to start from. -/
  | empty (hlast : p.trajectory.last? = none) :
      Passage (.done (p.report #[] (.error (.error (.trajectory .empty)))))
  /-- The time is reached. -/
  | reached {last : Sample R} (hlast : p.trajectory.last? = some last)
      (hend : finish - last.time ≤ endTolerance k) :
      Passage (.done (p.report #[.integrationFinished steps last.time]
        (.ok ⟨.complete, steps, last.time⟩)))
  /-- The step fails. -/
  | failure {last : Sample R} {e : Failure (Descent.Error R)}
      (hlast : p.trajectory.last? = some last) (hend : ¬finish - last.time ≤ endTolerance k)
      (hstep : (scheme.step f p.trajectory last k m).outcome = .error e) :
      Passage (.done (Progress.stepFailed
        { p with journal := p.journal ++ (scheme.step f p.trajectory last k m).journal }
        (nextTime finish k last.time) e))
  /-- The observer stops the run at the new sample. -/
  | stopped {last : Sample R} {state : Vec R} {sample : Sample R}
      (hlast : p.trajectory.last? = some last) (hend : ¬finish - last.time ≤ endTolerance k)
      (hstep : (scheme.step f p.trajectory last k m).outcome = .ok state)
      (hsample : sample = ⟨state, nextTime finish k last.time⟩)
      (hverdict : (observer p.observer ⟨steps + 1, sample⟩).1 = .stop) :
      Passage (.done (Progress.report
        ⟨p.trajectory.push sample, (observer p.observer ⟨steps + 1, sample⟩).2,
          p.journal ++ (scheme.step f p.trajectory last k m).journal⟩
        #[.integrationStopped (steps + 1) sample.time] (.ok ⟨.stopped, steps + 1, sample.time⟩)))
  /-- The new sample is recorded and the run goes on. -/
  | onward {last : Sample R} {state : Vec R} {sample : Sample R}
      (hlast : p.trajectory.last? = some last) (hend : ¬finish - last.time ≤ endTolerance k)
      (hstep : (scheme.step f p.trajectory last k m).outcome = .ok state)
      (hsample : sample = ⟨state, nextTime finish k last.time⟩)
      (hverdict : (observer p.observer ⟨steps + 1, sample⟩).1 = .proceed) :
      Passage (.again ⟨p.trajectory.push sample, (observer p.observer ⟨steps + 1, sample⟩).2,
        p.journal ++ (scheme.step f p.trajectory last k m).journal⟩)

variable {f scheme m observer finish k steps p}

/-- **A round comes to one of the five.** -/
theorem passage_iff {r : Round (Progress R σ) (Report R σ)} :
    Passage f scheme m observer finish k steps p r ↔
      p.next f scheme m observer finish k steps = r := by
  constructor
  · intro h
    cases h with
    | empty hlast => simp only [Progress.next, hlast]
    | reached hlast hend => simp only [Progress.next, hlast, hend, if_true]
    | failure hlast hend hstep => simp only [Progress.next, hlast, hend, hstep, if_false]
    | stopped hlast hend hstep hsample hverdict =>
      subst hsample
      simp only [Progress.next, hlast, hend, hstep, hverdict, if_false]
    | onward hlast hend hstep hsample hverdict =>
      subst hsample
      simp only [Progress.next, hlast, hend, hstep, hverdict, if_false]
  · rintro rfl
    -- The cases are those that the round itself distinguishes, in its order.
    cases hlast : p.trajectory.last? with
    | none =>
      simp only [Progress.next, hlast]
      exact .empty hlast
    | some last =>
      by_cases hend : finish - last.time ≤ endTolerance k
      · simp only [Progress.next, hlast, hend, if_true]
        exact .reached hlast hend
      · cases hstep : (scheme.step f p.trajectory last k m).outcome with
        | error e =>
          simp only [Progress.next, hlast, hend, hstep, if_false]
          exact .failure hlast hend hstep
        | ok state =>
          cases hverdict :
              (observer p.observer ⟨steps + 1, ⟨state, nextTime finish k last.time⟩⟩).1 with
          | stop =>
            simp only [Progress.next, hlast, hend, hstep, hverdict, if_false]
            exact .stopped hlast hend hstep rfl hverdict
          | proceed =>
            simp only [Progress.next, hlast, hend, hstep, hverdict, if_false]
            exact .onward hlast hend hstep rfl hverdict

end Passages

omit [Scalar R] in
/-- A step that fails is nothing to tell the observer. -/
theorem Progress.stepFailed_observer (p : Progress R σ) (time : R)
    (e : Failure (Descent.Error R)) : (p.stepFailed time e).observer = p.observer := by
  cases e <;> rfl

/-! ### All rounds -/

section Rounds

variable (p : Problem R) (f : Field R) (scheme : Scheme R) (observer : Observer (Arrival R) σ)
  (memory : σ) (finish k : R)

/-- The progress of an integration that is about to start. -/
def Problem.start : Progress R σ :=
  ⟨p.trajectory, memory, #[.integrationStarted finish k scheme.isExplicit p.trajectory.size]⟩

/-- The integration takes `n` steps, and this is how far it has come. -/
def Reaches (n : Nat) (q : Progress R σ) : Prop :=
  rounds (Progress.next f scheme p.minimiser observer finish k) n 0
    (p.start scheme memory finish k) = .again q

/-- The ways in which a whole integration can go within a budget of rounds. -/
inductive Journey (budget : Nat) : Report R σ → Prop
  /-- It is refused. -/
  | refused {e : Error R} (hready : p.ready k = .error e) :
      Journey budget ⟨.error (.error e), p.trajectory, memory, #[]⟩
  /-- It comes to its end. -/
  | last {f : Field R} {scheme : Scheme R} {n : Nat} {q : Progress R σ} {report : Report R σ}
      (hready : p.ready k = .ok (f, scheme)) (hn : n < budget)
      (hreach : Reaches p f scheme observer memory finish k n q)
      (hlast : q.next f scheme p.minimiser observer finish k n = .done report) :
      Journey budget report

variable {p f scheme observer memory finish k}

theorem Reaches.zero {q : Progress R σ} :
    Reaches p f scheme observer memory finish k 0 q ↔ q = p.start scheme memory finish k := by
  simp [Reaches, eq_comm]

theorem Reaches.succ {n : Nat} {q : Progress R σ} :
    Reaches p f scheme observer memory finish k (n + 1) q ↔
      ∃ before, Reaches p f scheme observer memory finish k n before ∧
        before.next f scheme p.minimiser observer finish k n = .again q := by
  simp only [Reaches, rounds_succ_eq_again, Nat.zero_add]

/-- An integration that is not refused is its rounds. -/
theorem integrate_of_ready {budget : Nat} {report : Report R σ}
    (hready : p.ready k = .ok (f, scheme)) :
    p.integrate observer memory finish k budget = some report ↔
      rounds (Progress.next f scheme p.minimiser observer finish k) budget 0
        (p.start scheme memory finish k) = .done report := by
  simp only [Problem.integrate, hready, Problem.start]
  split
  · rename_i found hfound
    rw [hfound, Option.some.injEq, Round.done.injEq]
  · rename_i hagain
    rw [hagain]
    exact ⟨nofun, nofun⟩

/-- **An integration that its budget suffices for goes one of these ways.** -/
theorem integrate_eq_some {budget : Nat} {report : Report R σ} :
    p.integrate observer memory finish k budget = some report ↔
      Journey p observer memory finish k budget report := by
  constructor
  · intro h
    cases hready : p.ready k with
    | error e =>
      simp only [Problem.integrate, hready] at h
      cases h
      exact .refused hready
    | ok setup =>
      obtain ⟨f, scheme⟩ := setup
      obtain ⟨n, hn, q, hreach, hlast⟩ := rounds_eq_done.mp ((integrate_of_ready hready).mp h)
      rw [Nat.zero_add] at hlast
      exact .last hready hn hreach hlast
  · intro h
    cases h with
    | refused hready => simp only [Problem.integrate, hready]
    | @last f scheme n q _ hready hn hreach hlast =>
      exact (integrate_of_ready hready).mpr
        (rounds_eq_done.mpr ⟨n, hn, q, hreach, by rwa [Nat.zero_add]⟩)

/-- What an integration asks for before it starts. -/
theorem ready_eq_ok_iff :
    p.ready k = .ok (f, scheme) ↔ p.field? = some f ∧ p.scheme? = some scheme ∧
      p.trajectory.requireSpacing k = .ok () ∧ p.trajectory.requireDepth scheme.depth = .ok () := by
  rw [Problem.ready]
  cases hfield : p.field? with
  | none => simp
  | some g =>
    cases hscheme : p.scheme? with
    | none => simp
    | some s =>
      simp only [bind_eq_ok, mapError_eq_ok, pure_eq_ok_iff, Prod.mk.injEq, Option.some.injEq]
      constructor
      · rintro ⟨_, hspacing, _, hdepth, rfl, rfl⟩
        exact ⟨rfl, rfl, hspacing, hdepth⟩
      · rintro ⟨rfl, rfl, hspacing, hdepth⟩
        exact ⟨(), hspacing, (), hdepth, rfl, rfl⟩

/-- The samples of an integration that is not refused can be continued. -/
theorem requireSpacing_of_ready (hready : p.ready k = .ok (f, scheme)) :
    p.trajectory.requireSpacing k = .ok () :=
  (ready_eq_ok_iff.mp hready).2.2.1

/-- An integration that is not refused has a sample to start from. -/
theorem exists_last_of_ready (hready : p.ready k = .ok (f, scheme)) :
    ∃ last, p.trajectory.last? = some last :=
  exists_last_of_requireSpacing (requireSpacing_of_ready hready)

/-- An integration is not refused for a step that failed. -/
theorem ready_ne_step {time : R} {cause : Descent.Error R} :
    p.ready k ≠ .error (.step time cause) := by
  intro h
  unfold Problem.ready at h
  split at h
  · exact nomatch h
  · exact nomatch h
  · rcases bind_eq_error.mp h with h | ⟨_, -, h⟩
    · obtain ⟨_, -, hstep⟩ := mapError_eq_error.mp h
      exact nomatch hstep
    rcases bind_eq_error.mp h with h | ⟨_, -, h⟩
    · obtain ⟨_, -, hstep⟩ := mapError_eq_error.mp h
      exact nomatch hstep
    · exact nomatch h

/-- An integration that has a sample to start from always has one. -/
theorem Reaches.last? {n : Nat} {q : Progress R σ}
    (h : Reaches p f scheme observer memory finish k n q)
    (hlast : ∃ last, p.trajectory.last? = some last) : ∃ last, q.trajectory.last? = some last := by
  cases n with
  | zero =>
    rw [Reaches.zero.mp h]
    exact hlast
  | succ n =>
    obtain ⟨before, -, hnext⟩ := Reaches.succ.mp h
    cases passage_iff.mpr hnext with
    | onward => exact ⟨_, Trajectory.last?_push⟩

end Rounds

/-! ### Another memory -/

/-- The progress with the observer's memory translated. -/
def Progress.mapObserver (g : σ → τ) (p : Progress R σ) : Progress R τ :=
  ⟨p.trajectory, g p.observer, p.journal⟩

/-- The report with the observer's memory translated. -/
def Report.mapObserver (g : σ → τ) (report : Report R σ) : Report R τ :=
  ⟨report.outcome, report.trajectory, g report.observer, report.journal⟩

section Translation

variable {o : Observer (Arrival R) σ} {o' : Observer (Arrival R) τ} {g : τ → σ}

/-- Observers that answer alike, up to a translation of what they remember, see the same
rounds. -/
theorem next_mapObserver (h : ∀ m e, o (g m) e = ((o' m e).1, g (o' m e).2)) (f : Field R)
    (scheme : Scheme R) (m : Descent.Minimiser R) (finish k : R) (steps : Nat)
    (p : Progress R τ) :
    (p.mapObserver g).next f scheme m o finish k steps =
      (p.next f scheme m o' finish k steps).map (Progress.mapObserver g)
        (Report.mapObserver g) := by
  obtain ⟨r, hr⟩ : ∃ r, p.next f scheme m o' finish k steps = r := ⟨_, rfl⟩
  rw [hr]
  -- The observers answer alike, so both rounds end in the same way.
  cases passage_iff.mpr hr with
  | empty hlast => exact passage_iff.mp (.empty hlast)
  | reached hlast hend => exact passage_iff.mp (.reached hlast hend)
  | @failure last e hlast hend hstep =>
    have hpassage : Passage f scheme m o finish k steps (p.mapObserver g) _ :=
      .failure hlast hend hstep
    refine (passage_iff.mp hpassage).trans ?_
    cases e <;> rfl
  | @stopped last state sample hlast hend hstep hsample hverdict =>
    have hanswer := congrArg Prod.fst (h p.observer ⟨steps + 1, sample⟩)
    have hpassage : Passage f scheme m o finish k steps (p.mapObserver g) _ :=
      .stopped hlast hend hstep hsample (hanswer.trans hverdict)
    refine (passage_iff.mp hpassage).trans ?_
    simp [Round.map, Progress.report, Report.mapObserver, Progress.mapObserver, h]
  | @onward last state sample hlast hend hstep hsample hverdict =>
    have hanswer := congrArg Prod.fst (h p.observer ⟨steps + 1, sample⟩)
    have hpassage : Passage f scheme m o finish k steps (p.mapObserver g) _ :=
      .onward hlast hend hstep hsample (hanswer.trans hverdict)
    refine (passage_iff.mp hpassage).trans ?_
    simp [Round.map, Progress.mapObserver, h]

/-- **What an observer remembers, and how, is its own business**: observers that answer
alike, up to a translation of what they remember, see the same integration. -/
theorem integrate_mapObserver (h : ∀ m e, o (g m) e = ((o' m e).1, g (o' m e).2))
    (p : Problem R) (memory : τ) (finish k : R) (budget : Nat) :
    p.integrate o (g memory) finish k budget =
      (p.integrate o' memory finish k budget).map (Report.mapObserver g) := by
  cases hready : p.ready k with
  | error e => simp [Problem.integrate, hready, Report.mapObserver]
  | ok setup =>
    obtain ⟨f, scheme⟩ := setup
    have hrounds := rounds_map (next_mapObserver h f scheme p.minimiser finish k) budget 0
      (p.start scheme memory finish k)
    simp only [Progress.mapObserver, Problem.start] at hrounds
    simp only [Problem.integrate, hready, hrounds]
    cases rounds (Progress.next f scheme p.minimiser o' finish k) budget 0
      ⟨p.trajectory, memory, _⟩ <;> rfl

/-- An observer that keeps the events sees the same integration. -/
theorem integrate_logging (p : Problem R) (o : Observer (Arrival R) σ) (memory : σ)
    (log : List (Arrival R)) (finish k : R) (budget : Nat) :
    p.integrate o memory finish k budget =
      (p.integrate o.logging (memory, log) finish k budget).map (Report.mapObserver Prod.fst) :=
  have h : ∀ (kept : σ × List (Arrival R)) (e : Arrival R),
      o kept.1 e = ((o.logging kept e).1, (o.logging kept e).2.1) := fun _ _ => rfl
  integrate_mapObserver (g := Prod.fst) h p (memory, log) finish k budget

end Translation

end Stepwise.Ode
