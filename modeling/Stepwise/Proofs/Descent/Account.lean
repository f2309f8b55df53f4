import Stepwise.Proofs.Descent.Iterates
import Stepwise.Proofs.Descent.Course
import Stepwise.Proofs.Descent.Settings

/-!
# What a descent tells and what it returns

A descent gives two accounts of itself: the events that it delivers to the observer on
the way, and the outcome in the end. Both are accounts of the iterates
(`Stepwise.Descent.iterate`), and they agree with each other.

The invariant behind it is `Stepwise.Descent.Course`: the events so far are the visits of
the iterates from the starting point on, the gradient was not as good as zero at any of
them, and the observer objected to none. Every round that does not end the descent adds
one event to the course, so a descent that reaches iterate number `n` has a course of `n`
events behind it (`Stepwise.Descent.Reaches.course`). From that and the ways in which a
round can end the descent, `Stepwise.Descent.run_account` reads off what a solution and
what an exhausted cap mean.
-/

namespace Stepwise.Descent

variable {R σ : Type} [Scalar R]

/-- The events that a minimisation from `x₀` delivers to an observer. -/
def Minimiser.events (m : Minimiser R) (observer : Observer (Visit R) σ) (memory : σ)
    (x₀ : Vec R) : List (Visit R) :=
  (m.run observer.logging (memory, []) x₀).observer.2

section Accounts

variable (f : Oracle R) (s : Settings R) (x₀ : Vec R)

/-- The events are visits of the iterates, one after the other from the first on. -/
def Visits (events : List (Visit R)) : Prop :=
  ∀ i (h : i < events.length), visit f s x₀ i = .ok events[i]

variable (observer : Observer (Visit R) σ) (memory : σ) (events : List (Visit R))

/-- The events are those of iterates that the descent has left behind. -/
structure Course : Prop where
  /-- They are visits of the iterates. -/
  visits : Visits f s x₀ events
  /-- The gradient was nowhere as good as zero. -/
  not_converged : ∀ e ∈ events, ¬e.gradientNorm ≤ s.epsilon
  /-- The observer let the descent go on. -/
  proceed : ∀ v ∈ observer.answers memory events, v = .proceed

/-- The events and the solution are accounts of one descent that found something. -/
structure Found (sol : Solution R) : Prop where
  /-- The cap is not exceeded. -/
  iters_lt : sol.iters < s.maxIters
  /-- The point is the iterate that the given number of line searches leads to. -/
  reached : ∃ guide, iterate f s x₀ sol.iters = .ok ⟨sol.point, guide⟩
  /-- The objective is the value there. -/
  objective_eq : f.value sol.point = .ok sol.objective
  /-- The gradient's length is that of the gradient there. -/
  gradientNorm_eq : ∃ gradient, f.gradient sol.point = .ok gradient ∧
    gradient.norm = sol.gradientNorm
  /-- The descent counts as converged exactly if the gradient is as good as zero. -/
  converged_iff : sol.ending = .converged ↔ sol.gradientNorm ≤ s.epsilon
  /-- Otherwise the observer has stopped it at the last event. -/
  stop : sol.ending = .stopped → (observer.answers memory events).getLast? = some .stop
  /-- The observer has not objected before. -/
  proceed : ∀ v ∈ (observer.answers memory events).dropLast, v = .proceed
  /-- The gradient was not as good as zero before. -/
  not_converged : ∀ e ∈ events.dropLast, ¬e.gradientNorm ≤ s.epsilon
  /-- The events are visits of the iterates. -/
  visits : Visits f s x₀ events
  /-- There is one event for every iterate. -/
  iters_eq : events.map Visit.iter = List.range (sol.iters + 1)
  /-- The last event agrees with the solution. -/
  last : events.getLast? =
    some ⟨s.method, sol.iters, sol.point, sol.objective, sol.gradientNorm⟩

/-- The events are the account of a descent that was cut off by the cap. -/
structure Exhausted : Prop extends Course f s x₀ observer memory events where
  /-- As many iterates were reported as the cap allows. -/
  length_eq : events.length = s.maxIters
  /-- Every line search found a point, the one at the last iterate included. -/
  searched : ∃ here, iterate f s x₀ s.maxIters = .ok here

end Accounts

/-! ### One more event -/

section Concat

variable {f : Oracle R} {s : Settings R} {x₀ : Vec R} {observer : Observer (Visit R) σ}
  {memory : σ} {events : List (Visit R)} {e : Visit R}

theorem Visits.nil : Visits f s x₀ [] := fun _ h => absurd h (Nat.not_lt_zero _)

theorem Visits.concat (h : Visits f s x₀ events) (he : visit f s x₀ events.length = .ok e) :
    Visits f s x₀ (events ++ [e]) := by
  intro i hi
  rcases Nat.lt_or_ge i events.length with hlt | hge
  · rw [List.getElem_append_left hlt]
    exact h i hlt
  · obtain rfl : i = events.length := by
      rw [List.length_append, List.length_singleton] at hi
      omega
    rw [List.getElem_concat_length rfl]
    exact he

/-- The visits of the iterates carry their numbers. -/
theorem Visits.map_iter (h : Visits f s x₀ events) :
    events.map Visit.iter = List.range events.length := by
  refine List.ext_getElem (by simp) fun i hi _ => ?_
  rw [List.length_map] at hi
  obtain ⟨here, gradient, objective, -, -, -, he⟩ := visit_eq_ok.mp (h i hi)
  simp [he]

theorem Course.nil : Course f s x₀ observer memory [] where
  visits := .nil
  not_converged := by simp
  proceed := by simp

/-- A descent that is not at its end adds the event to its course. -/
theorem Course.concat (h : Course f s x₀ observer memory events)
    (he : visit f s x₀ events.length = .ok e)
    (hending : e.ending? s (observer (observer.after memory events) e).1 = none) :
    Course f s x₀ observer memory (events ++ [e]) := by
  obtain ⟨hnorm, hproceed⟩ := ending?_eq_none.mp hending
  refine ⟨h.visits.concat he, fun d hd => ?_, fun v hv => ?_⟩
  · rcases List.mem_append.mp hd with hd | hd
    · exact h.not_converged d hd
    · rw [List.mem_singleton.mp hd]
      exact hnorm
  · rw [Observer.answers_concat] at hv
    rcases List.mem_append.mp hv with hv | hv
    · exact h.proceed v hv
    · rw [List.mem_singleton.mp hv]
      exact hproceed

/-- The last event of a course did not end the descent. -/
theorem Course.ending?_last (h : Course f s x₀ observer memory (events ++ [e])) :
    e.ending? s (observer (observer.after memory events) e).1 = none := by
  refine ending?_eq_none.mpr ⟨h.not_converged e (by simp), h.proceed _ ?_⟩
  simp [Observer.answers_concat]

/-- **A descent at its end has found something**: one event more than its course, and the
solution that this event stands for. -/
theorem Course.found (h : Course f s x₀ observer memory events)
    (he : visit f s x₀ events.length = .ok e) {ending : Ending}
    (hending : e.ending? s (observer (observer.after memory events) e).1 = some ending)
    (hlt : events.length < s.maxIters) :
    Found f s x₀ observer memory (events ++ [e]) (e.solution ending) := by
  have hvisits := h.visits.concat he
  have hiter := hvisits.map_iter
  obtain ⟨here, gradient, objective, hhere, hgradient, hobjective, rfl⟩ := visit_eq_ok.mp he
  refine ⟨hlt, ⟨here.guide, hhere⟩, hobjective, ⟨gradient, hgradient, rfl⟩, ?_, ?_, ?_, ?_,
    hvisits, ?_, ?_⟩
  · rcases ending?_eq_some.mp hending with ⟨hle, rfl⟩ | ⟨hle, -, rfl⟩
    · exact iff_of_true rfl hle
    · exact iff_of_false (fun hc => nomatch hc) hle
  · rintro rfl
    rcases ending?_eq_some.mp hending with ⟨-, hc⟩ | ⟨-, hstop, -⟩
    · exact nomatch hc
    · simp [Observer.answers_concat, hstop]
  · simpa [Observer.answers_concat] using h.proceed
  · simpa using h.not_converged
  · rw [hiter, List.length_append]
    rfl
  · simp [Visit.solution]

/-- What is found has as many components as the starting point. -/
theorem Found.length_point {sol : Solution R} (h : Found f s x₀ observer memory events sol) :
    sol.point.length = x₀.length := by
  obtain ⟨guide, hreached⟩ := h.reached
  exact length_of_iterate hreached

/-- If the observer never objects, the gradient is as good as zero at what is found. -/
theorem Found.gradientNorm_le {sol : Solution R} (h : Found f s x₀ observer memory events sol)
    (hsilent : observer.Silent) : sol.gradientNorm ≤ s.epsilon := by
  cases hending : sol.ending with
  | converged => exact h.converged_iff.mp hending
  | stopped =>
    have hstop := List.mem_of_getLast? (h.stop hending)
    exact nomatch hsilent.proceed hstop

end Concat

/-! ### The invariant -/

section Invariant

variable {f : Oracle R} {s : Settings R} {x₀ : Vec R} {observer : Observer (Visit R) σ}
  {memory : σ}

/-- **A descent that reaches iterate number `n` has a course of `n` events behind it.** -/
theorem Reaches.course {n : Nat} {p : Progress R (σ × List (Visit R))}
    (h : Reaches f s observer.logging (memory, []) x₀ n p) :
    Course f s x₀ observer memory p.observer.2 ∧ p.observer.2.length = n ∧
      p.observer.1 = observer.after memory p.observer.2 := by
  induction n generalizing p with
  | zero =>
    obtain ⟨guide, -, rfl⟩ := Reaches.zero.mp h
    exact ⟨.nil, rfl, rfl⟩
  | succ n ih =>
    obtain ⟨before, hbefore, hnext⟩ := Reaches.succ.mp h
    obtain ⟨hcourse, hlength, hmemory⟩ := ih hbefore
    cases passage_iff.mpr hnext with
    | onward hobserve hending hmove =>
      obtain ⟨-, hvisit⟩ := observe_iterate hbefore.iterate_eq hobserve
      rw [Observer.logging_verdict, hmemory] at hending
      refine ⟨hcourse.concat (hlength ▸ hvisit) hending, by simp [hlength], ?_⟩
      simp [hmemory]

/-! ### The end -/

/-- What the observer remembers in the end is what it remembers after the events. -/
theorem Journey.memory_eq {report : Report R (σ × List (Visit R))}
    (h : Journey f s observer.logging (memory, []) x₀ report) :
    report.observer.1 = observer.after memory report.observer.2 := by
  cases h with
  | start hstart => rfl
  | last hn hreach hlast =>
    obtain ⟨-, -, hmemory⟩ := hreach.course
    cases passage_iff.mpr hlast with
    | fault hobserve => exact hmemory
    | ending hobserve hending => simp [hmemory]
    | failure hobserve hending hmove => simp [hmemory]
  | cap hreach => exact hreach.course.2.2

/-- A descent that ends with a solution has found it. -/
theorem Journey.found {report : Report R (σ × List (Visit R))}
    (h : Journey f s observer.logging (memory, []) x₀ report) {sol : Solution R}
    (hsol : report.outcome = .ok sol) : Found f s x₀ observer memory report.observer.2 sol := by
  cases h with
  | start hstart => exact nomatch hsol
  | cap hreach => exact nomatch hsol
  | last hn hreach hlast =>
    obtain ⟨hcourse, hlength, hmemory⟩ := hreach.course
    subst hlength
    cases passage_iff.mpr hlast with
    | fault hobserve => exact nomatch hsol
    | failure hobserve hending hmove => exact nomatch hsol
    | ending hobserve hending =>
      obtain ⟨-, hvisit⟩ := observe_iterate hreach.iterate_eq hobserve
      rw [Observer.logging_verdict, hmemory] at hending
      cases hsol
      exact hcourse.found hvisit hending hn

/-- **A descent is cut off by the cap exactly if its events are the account of it.** -/
theorem Journey.notConverged_iff {report : Report R (σ × List (Visit R))}
    (h : Journey f s observer.logging (memory, []) x₀ report) :
    report.outcome = .error (.error (.notConverged (.method s.method) s.maxIters)) ↔
      Exhausted f s x₀ observer memory report.observer.2 := by
  cases h with
  | start hstart =>
    refine ⟨fun h => (nomatch h), fun h => ?_⟩
    -- The starting point is an iterate, but nothing is reported of it.
    obtain ⟨here, hhere⟩ := h.searched
    rw [← h.length_eq] at hhere
    exact nomatch hstart.symm.trans (iterate_zero_eq_ok.mp hhere).2
  | cap hreach =>
    obtain ⟨hcourse, hlength, -⟩ := hreach.course
    exact ⟨fun _ => ⟨hcourse, hlength, _, hreach.iterate_eq⟩, fun _ => rfl⟩
  | @last _ p _ hn hreach hlast =>
    obtain ⟨hcourse, hlength, hmemory⟩ := hreach.course
    subst hlength
    cases passage_iff.mpr hlast with
    | fault hobserve =>
      exact ⟨fun h => (nomatch h), fun h => absurd h.length_eq (Nat.ne_of_lt hn)⟩
    | ending hobserve hending =>
      rw [Observer.logging_verdict, hmemory] at hending
      refine ⟨fun h => (nomatch h), fun h => ?_⟩
      exact nomatch hending.symm.trans h.toCourse.ending?_last
    | failure hobserve hending hmove =>
      obtain ⟨hgradient, -⟩ := observe_iterate hreach.iterate_eq hobserve
      have hadvance := move_snd (s := s) hgradient p.observer.2.length
      rw [hmove] at hadvance
      constructor
      · intro h
        cases h
        exact nomatch advance_failure hadvance.symm
      · intro h
        -- The last iterate below the cap was observed, but not left.
        obtain ⟨here, hhere⟩ := h.searched
        rw [← h.length_eq, Observer.logging_memory, List.length_append, List.length_singleton,
          iterate_succ hreach.iterate_eq, ← hadvance] at hhere
        exact nomatch hhere

end Invariant

/-! ### Minimisations -/

/-- A minimisation whose settings do not make sense gives no solution. -/
theorem check_of_run {m : Minimiser R} {observer : Observer (Visit R) σ} {memory : σ} {x₀ : Vec R}
    {sol : Solution R} (hsol : (m.run observer memory x₀).outcome = .ok sol) :
    m.settings.check = .ok () := by
  cases hcheck : m.settings.check with
  | ok accepted => rfl
  | error e => simp [Minimiser.run, Minimiser.oracle, hcheck] at hsol

/-- A minimisation with an objective that ends with a solution has found it. -/
theorem found_of_run {m : Minimiser R} {objective : Objective R}
    (hcheck : m.settings.check = .ok ()) (hobjective : m.objective? = some objective)
    {observer : Observer (Visit R) σ} {memory : σ} {x₀ : Vec R} {sol : Solution R}
    (hsol : (m.run observer memory x₀).outcome = .ok sol) :
    Found (objective.complete m.settings.step) m.settings x₀ observer memory
      (m.events observer memory x₀) sol := by
  have hjourney := journey_descend (objective.complete m.settings.step) m.settings
    observer.logging (memory, []) x₀
  rw [run_logging m observer memory [] x₀, run_of_oracle (oracle_of_check hcheck hobjective)] at hsol
  rw [Minimiser.events, run_of_oracle (oracle_of_check hcheck hobjective)]
  exact hjourney.found hsol

/-- **What a minimisation tells and what it returns**, once its settings make sense and it
has an objective: a solution is found as the events tell, the descent fails for lack of
rounds exactly if they tell so, and they are what the observer was told. -/
theorem run_account {m : Minimiser R} {objective : Objective R}
    (hcheck : m.settings.check = .ok ()) (hobjective : m.objective? = some objective)
    (observer : Observer (Visit R) σ) (memory : σ) (x₀ : Vec R) :
    (∀ sol, (m.run observer memory x₀).outcome = .ok sol →
      Found (objective.complete m.settings.step) m.settings x₀ observer memory
        (m.events observer memory x₀) sol) ∧
    ((m.run observer memory x₀).outcome =
        .error (.error (.notConverged (.method m.settings.method) m.settings.maxIters)) ↔
      Exhausted (objective.complete m.settings.step) m.settings x₀ observer memory
        (m.events observer memory x₀)) ∧
    (m.run observer memory x₀).observer = observer.after memory (m.events observer memory x₀) := by
  have horacle : m.oracle = .ok (objective.complete m.settings.step) := by
    simp only [Minimiser.oracle, hcheck, hobjective]
  have hjourney := journey_descend (objective.complete m.settings.step) m.settings
    observer.logging (memory, []) x₀
  rw [run_logging m observer memory [] x₀, Minimiser.events]
  simp only [Minimiser.run, horacle, Report.mapObserver]
  exact ⟨fun sol hsol => hjourney.found hsol, hjourney.notConverged_iff, hjourney.memory_eq⟩

/-- The square of the length, with its gradient. -/
def square : Objective R where
  value x := Vec.dot x x
  gradient? := some fun x => .ok (x.scale (Scalar.ofNat 2))

/-- A minimisation of the square that goes half the way along every direction. -/
def halfway : Minimiser Float where
  settings := { (Settings.default : Settings Float) with
    search := .trivial, trivialStep := Scalar.ratio 1 2 }
  objective? := some square

/-- Half the way down the slope of the square there is a solution to give account of. -/
theorem run_account_halfway :
    halfway.settings.check = .ok () ∧ halfway.objective? = some square ∧
      ∃ sol, (halfway.run .silent () [3, -4]).outcome = .ok sol ∧
        Found (square.complete halfway.settings.step) halfway.settings [3, -4] .silent ()
          (halfway.events .silent () [3, -4]) sol := by
  have hcheck : halfway.settings.check = .ok () := check_eq_ok_iff.mpr (by decide +kernel)
  have hok : (halfway.run .silent () [3, -4]).outcome.isOk = true := by decide +kernel
  refine ⟨hcheck, rfl, ?_⟩
  cases hrun : (halfway.run .silent () [3, -4]).outcome with
  | error e => simp [hrun, Except.isOk, Except.toBool] at hok
  | ok sol => exact ⟨sol, rfl, (run_account hcheck rfl _ _ _).1 sol hrun⟩

end Stepwise.Descent
