import Stepwise.Ode.Scheme

/-!
# Initial value problems

A problem is a right-hand side, a scheme, the samples recorded so far, and a minimiser
for implicit steps. To solve it up to a time is to append samples, one step after the
other, until the last one is there.

The time counts as reached if no more than a millionth of a step is missing. A step
that would end within that distance of it, on either side, ends exactly there.

Over doubles the time need not advance: a step may be lost in rounding. So the number
of rounds is not bounded by anything in the problem, and an integration takes a budget
of rounds. It has an answer if the budget suffices, and a larger budget then gives the
same answer.
-/

namespace Stepwise.Ode

/-- A new sample, as the observer sees it. -/
structure Arrival (R : Type) where
  /-- Its number, counted from one. -/
  step : Nat
  /-- The sample. -/
  sample : Sample R

/-- Why an integration ended well. -/
inductive Ending where
  /-- The time was reached. -/
  | complete
  /-- The observer asked to stop. -/
  | stopped
  deriving Repr, DecidableEq

/-- The name of an end. -/
def Ending.name : Ending → String
  | .complete => "Complete"
  | .stopped => "StoppedByObserver"

/-- How an integration ended. -/
structure Completion (R : Type) where
  /-- Why it ended. -/
  ending : Ending
  /-- The number of samples it appended. -/
  steps : Nat
  /-- The time of the last sample. -/
  time : R

/-- How an integration went. -/
structure Report (R σ : Type) where
  /-- How it ended, or why it failed. -/
  outcome : Except (Failure (Error R)) (Completion R)
  /-- The samples after it. -/
  trajectory : Trajectory R
  /-- What the observer remembers. -/
  observer : σ
  /-- What happened. -/
  journal : Journal R

/-- An initial value problem, with the samples recorded so far. -/
structure Problem (R : Type) where
  /-- The right-hand side, if there is one. -/
  field? : Option (Field R)
  /-- The scheme, if there is one. -/
  scheme? : Option (Scheme R)
  /-- The samples. -/
  trajectory : Trajectory R
  /-- The minimiser for implicit steps. -/
  minimiser : Descent.Minimiser R

/-! ### Posing a problem -/

namespace Problem

variable {R : Type}

/-- The problem with another right-hand side. -/
def withField (p : Problem R) (f : Field R) : Problem R := { p with field? := some f }

/-- The problem with another scheme. -/
def withScheme (p : Problem R) (scheme : Scheme R) : Problem R :=
  { p with scheme? := some scheme }

/-- The problem with other samples. -/
def withTrajectory (p : Problem R) (h : Trajectory R) : Problem R := { p with trajectory := h }

/-- The problem with another minimiser. -/
def withMinimiser (p : Problem R) (m : Descent.Minimiser R) : Problem R :=
  { p with minimiser := m }

/-- The problem after an integration: with the samples of its report, and otherwise as it
was. -/
def after {σ : Type} (p : Problem R) (report : Report R σ) : Problem R :=
  p.withTrajectory report.trajectory

variable [Scalar R]

/-- The problem with nothing set. -/
def new : Problem R := ⟨none, none, .empty, .new⟩

/-- The problem with the multistep scheme of given coefficients, if they make one. -/
def withMultistep (p : Problem R) (alpha beta : List R) : Except (Error R) (Problem R) :=
  ((Multistep.make alpha beta).mapError .scheme).map fun s => p.withScheme (.multistep s)

/-- The problem with the Runge–Kutta scheme of given coefficients, if they make one. -/
def withTableau (p : Problem R) (a : Mat R) (b c : Vec R) : Except (Error R) (Problem R) :=
  ((Tableau.make a b c).mapError .scheme).map fun s => p.withScheme (.rungeKutta s)

end Problem

/-! ### One step -/

/-- How far an integration has come. -/
structure Progress (R σ : Type) where
  /-- The samples. -/
  trajectory : Trajectory R
  /-- What the observer remembers. -/
  observer : σ
  /-- What happened so far. -/
  journal : Journal R

variable {R σ : Type} [Scalar R]

open Scalar

/-- What is missing of a time when it counts as reached. -/
def endTolerance (k : R) : R := ratio 1 1000000 * k

/-- The time of the sample after one at `time`, on the way to `finish`. -/
def nextTime (finish k time : R) : R :=
  let next := time + k
  if abs (finish - next) ≤ endTolerance k then finish else next

/-- The progress as a report. -/
def Progress.report (p : Progress R σ) (entries : Journal R)
    (outcome : Except (Failure (Error R)) (Completion R)) : Report R σ :=
  ⟨outcome, p.trajectory, p.observer, p.journal ++ entries⟩

/-- The report of a failed step to `time`. -/
def Progress.stepFailed (p : Progress R σ) (time : R) : Failure (Descent.Error R) → Report R σ
  | .fault e => p.report #[] (.error (.fault e))
  | .error e => p.report #[.stepFailed time e] (.error (.error (.step time e)))

/-- Round number `steps` of an integration: the end, or one more sample. -/
def Progress.next (f : Field R) (scheme : Scheme R) (m : Descent.Minimiser R)
    (observer : Observer (Arrival R) σ) (finish k : R) (steps : Nat) (p : Progress R σ) :
    Round (Progress R σ) (Report R σ) :=
  match p.trajectory.last? with
  | none => .done (p.report #[] (.error (.error (.trajectory .empty))))
  | some last =>
    if finish - last.time ≤ endTolerance k then
      .done (p.report #[.integrationFinished steps last.time]
        (.ok ⟨.complete, steps, last.time⟩))
    else
      let time := nextTime finish k last.time
      let step := scheme.step f p.trajectory last k m
      let journal := p.journal ++ step.journal
      match step.outcome with
      | .error e => .done ({ p with journal := journal }.stepFailed time e)
      | .ok state =>
        let sample : Sample R := ⟨state, time⟩
        let (verdict, memory) := observer p.observer ⟨steps + 1, sample⟩
        let further : Progress R σ := ⟨p.trajectory.push sample, memory, journal⟩
        match verdict with
        | .stop =>
          .done (further.report #[.integrationStopped (steps + 1) time]
            (.ok ⟨.stopped, steps + 1, time⟩))
        | .proceed => .again further

/-! ### The whole integration -/

namespace Problem

/-- The right-hand side and the scheme, if the samples can be continued with step `k`. -/
def ready (p : Problem R) (k : R) : Except (Error R) (Field R × Scheme R) :=
  match p.field?, p.scheme? with
  | none, _ => .error .missingField
  | some _, none => .error .missingScheme
  | some f, some scheme => do
    (p.trajectory.requireSpacing k).mapError .trajectory
    (p.trajectory.requireDepth scheme.depth).mapError .trajectory
    return (f, scheme)

/-- The integration up to the time `finish` with step `k`; nothing if the budget of rounds
does not suffice. -/
def integrate (p : Problem R) (observer : Observer (Arrival R) σ) (memory : σ) (finish k : R)
    (budget : Nat) : Option (Report R σ) :=
  match p.ready k with
  | .error e => some ⟨.error (.error e), p.trajectory, memory, #[]⟩
  | .ok (f, scheme) =>
    let opening := #[.integrationStarted finish k scheme.isExplicit p.trajectory.size]
    match rounds (Progress.next f scheme p.minimiser observer finish k) budget 0
        ⟨p.trajectory, memory, opening⟩ with
    | .done report => some report
    | .again _ => none

/-- An integration that its budget suffices for does not depend on the budget. -/
theorem integrate_of_le {p : Problem R} {observer : Observer (Arrival R) σ} {memory : σ}
    {finish k : R} {budget budget' : Nat} {report : Report R σ}
    (h : p.integrate observer memory finish k budget = some report) (hle : budget ≤ budget') :
    p.integrate observer memory finish k budget' = some report := by
  unfold integrate at h ⊢
  cases hr : p.ready k with
  | error e => simpa [hr] using h
  | ok setup =>
    obtain ⟨f, scheme⟩ := setup
    simp only [hr] at h ⊢
    split at h
    · rename_i found hf
      rw [rounds_done_of_le hf hle]
      exact h
    · simp at h

/-- The state at a time of the recorded span. -/
def stateAt (p : Problem R) (time : R) : Except (Failure (Error R)) (Vec R) :=
  (p.trajectory.stateAt time).mapError (Failure.map .trajectory)

/-- The samples written out, if there are none. -/
def inspectTrajectory (h : Trajectory R) : String :=
  "History \x7b samples: [" ++ (if h.size = 0 then "" else "..") ++ "] \x7d"

/-- The problem written out. -/
def inspect (p : Problem Float) : String :=
  "Ivp \x7b rhs: " ++ (if p.field?.isSome then "Some(\"<fn>\")" else "None") ++ ", scheme: " ++
    (match p.scheme? with
      | none => "None"
      | some scheme => "Some(" ++ scheme.inspect ++ ")") ++
    ", history: " ++ inspectTrajectory p.trajectory ++ ", optimizer: " ++ p.minimiser.inspect ++
    " \x7d"

end Problem

end Stepwise.Ode
