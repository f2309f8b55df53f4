import Stepwise.Linear.Vector
import Stepwise.Decimal.Layout

/-!
# Trajectories

A trajectory is a list of samples: states with the times at which they were taken.
Nothing is assumed about it when it is made. An integration asks for equal gaps and
enough samples first; between two samples the state is interpolated.

Gaps count as equal to a step if they differ from it by no more than the square root
of the single-precision gap. A query between samples looks up the first sample that is
not earlier than the time, by halving the range of candidates.
-/

namespace Stepwise.Ode

/-- A state at a time. -/
structure Sample (R : Type) where
  /-- The state. -/
  state : Vec R
  /-- The time. -/
  time : R

/-- Samples, in the order in which they were recorded. -/
structure Trajectory (R : Type) where
  /-- The samples. -/
  samples : Array (Sample R)

/-- What is wrong with a trajectory, or with a question about it. -/
inductive TrajectoryError (R : Type) where
  /-- There are no samples. -/
  | empty
  /-- The step is not a positive number. -/
  | nonPositiveStep (step : R)
  /-- The gap before a sample is not the step. -/
  | spacing (index : Nat) (gap step : R)
  /-- The time is not between the first and the last one. -/
  | outOfSpan (time start finish : R)
  /-- There are fewer samples than are needed. -/
  | tooShort (needed available : Nat)
  /-- A state is not as long as the first one. -/
  | dimensionMismatch (index expected found : Nat)

/-- The error in a sentence. -/
def TrajectoryError.message : TrajectoryError Float → String
  | .empty => "the history is empty"
  | .nonPositiveStep step => "step must be positive and finite, got " ++ Decimal.plain step
  | .spacing index gap step =>
    "gap of " ++ Decimal.plain gap ++ " before sample " ++ toString index ++
      " does not match step " ++ Decimal.plain step
  | .outOfSpan time start finish =>
    "time " ++ Decimal.plain time ++ " is outside the recorded span [" ++ Decimal.plain start ++
      ", " ++ Decimal.plain finish ++ "]"
  | .tooShort needed available =>
    "the scheme needs " ++ toString needed ++ " samples but the history holds " ++
      toString available
  | .dimensionMismatch index expected found =>
    "sample " ++ toString index ++ " has dimension " ++ toString found ++ ", expected " ++
      toString expected

namespace Trajectory

variable {R : Type}

/-- The trajectory without samples. -/
def empty : Trajectory R := ⟨#[]⟩

/-- The number of samples. -/
def size (h : Trajectory R) : Nat := h.samples.size

/-- The first sample. -/
def first? (h : Trajectory R) : Option (Sample R) := h.samples[0]?

/-- The last sample. -/
def last? (h : Trajectory R) : Option (Sample R) := h.samples.back?

/-- One more sample at the end. -/
def push (h : Trajectory R) (sample : Sample R) : Trajectory R := ⟨h.samples.push sample⟩

/-- The newest samples, at most `n` of them, the newest first. -/
def recent (h : Trajectory R) (n : Nat) : List (Sample R) :=
  (h.samples.extract (h.size - n) h.size).toList.reverse

/-- Accepts a trajectory with at least `needed` samples. -/
def requireDepth (h : Trajectory R) (needed : Nat) : Except (TrajectoryError R) Unit :=
  if h.size < needed then .error (.tooShort needed h.size) else .ok ()

variable [Scalar R]

open Scalar

/-! ### Even spacing -/

/-- How far a gap may be from the step. -/
def spacingTolerance : R := sqrt singleGap

/-- Accepts samples that follow `previous`, the first of them being number `index`, if
their states have dimension `expected` and their gaps match the step. -/
def requireGaps (expected : Nat) (step : R) :
    (index : Nat) → (previous : Sample R) → List (Sample R) → Except (TrajectoryError R) Unit
  | _, _, [] => .ok ()
  | index, previous, sample :: rest =>
    let gap := sample.time - previous.time
    if sample.state.length ≠ expected then
      .error (.dimensionMismatch index expected sample.state.length)
    else if spacingTolerance < abs (gap - step) then .error (.spacing index gap step)
    else requireGaps expected step (index + 1) sample rest

/-- Accepts a trajectory with states of one dimension and gaps that match the step,
which has to be positive and finite. -/
def requireSpacing (h : Trajectory R) (step : R) : Except (TrajectoryError R) Unit :=
  if ofNat 0 < step && isFinite step then
    match h.samples.toList with
    | [] => .error .empty
    | first :: rest => requireGaps first.state.length step 1 first rest
  else .error (.nonPositiveStep step)

/-! ### States between samples -/

/-- The candidate that halving arrives at: among `count` places from `base` on, each
time the place half-way is taken as the new base if `before` holds there. -/
def halve (before : Nat → Bool) (base count : Nat) : Nat :=
  if count ≤ 1 then base
  else
    let half := count / 2
    halve before (if before (base + half) then base + half else base) (count - half)
termination_by count
decreasing_by omega

/-- The first of `count` places at which `before` no longer holds, if it holds up to
some place and not after it. -/
def firstNot (before : Nat → Bool) (count : Nat) : Nat :=
  if count = 0 then 0
  else
    let base := halve before 0 count
    if before base then base + 1 else base

/-- Whether a sample exists and is earlier than a time. -/
def isEarlier (h : Trajectory R) (time : R) (i : Nat) : Bool :=
  match h.samples[i]? with
  | some sample => sample.time < time
  | none => false

/-- The state between two samples at a time between theirs. -/
def interpolate (l r : Sample R) (time : R) : Except Fault (Vec R) :=
  let weight := (r.time - time) / (r.time - l.time)
  (l.state.scale weight).add (r.state.scale (ofNat 1 - weight))

/-- The state at the place found for a time. -/
def stateFrom (h : Trajectory R) (time : R) (place : Nat) : Except Fault (Vec R) :=
  match h.samples[place]? with
  | none => .error (.component place h.size)
  | some r =>
    if r.time == time || place == 0 then .ok r.state
    else
      match h.samples[place - 1]? with
      | none => .ok r.state
      | some l => interpolate l r time

/-- The state at a time of the recorded span. -/
def stateAt (h : Trajectory R) (time : R) : Except (Failure (TrajectoryError R)) (Vec R) :=
  match h.first?, h.last? with
  | some first, some last =>
    if first.time ≤ time && time ≤ last.time then
      Failure.ofFault (h.stateFrom time (firstNot (h.isEarlier time) h.size))
    else .error (.error (.outOfSpan time first.time last.time))
  | _, _ => .error (.error .empty)

end Trajectory

end Stepwise.Ode
