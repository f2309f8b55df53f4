import Stepwise.Ode.Error
import Stepwise.Ode.Step

/-!
# Linear multistep schemes

A multistep scheme combines recorded states with slopes at them. With `u₁`, `u₂`, … the
recorded states from the newest back, and `t₁`, `t₂`, … their times, the next state `u`
at time `t` satisfies

`u = α₁ u₁ + α₂ u₂ + … + k (β₀ f(u, t) + β₁ f(u₁, t₁) + β₂ f(u₂, t₂) + …)`.

The scheme is explicit if `β₀` is as good as zero; its term is then left out. Otherwise
the square of the difference between the two sides is minimised from the last state.
The coefficient `α₀` belongs to `u` itself and is not used.
-/

namespace Stepwise.Ode

/-- The coefficients of a multistep scheme. -/
structure Multistep (R : Type) where
  /-- The coefficients of states, the next one's first. -/
  alpha : List R
  /-- The coefficients of slopes, the next one's first. -/
  beta : List R
  /-- There is a coefficient for the slope at the next state. -/
  beta_ne_nil : beta ≠ []
  /-- Some coefficient refers to a sample. -/
  depth_pos : 0 < max alpha.length beta.length - 1

namespace Multistep

/-- Multistep schemes with names. -/
inductive Preset where
  /-- The slope at the last state. -/
  | forwardEuler
  /-- The slope at the next state. -/
  | backwardEuler
  /-- The mean of both slopes. -/
  | trapezoidal
  /-- The slope at the last state, from the state before it. -/
  | midpoint
  deriving Repr, DecidableEq

instance : Named Preset where
  all := [.forwardEuler, .backwardEuler, .trapezoidal, .midpoint]
  name
    | .forwardEuler => "ForwardEuler"
    | .backwardEuler => "BackwardEuler"
    | .trapezoidal => "Trapezoidal"
    | .midpoint => "Midpoint"
  title
    | .forwardEuler => "forward Euler"
    | .backwardEuler => "backward Euler"
    | .trapezoidal => "trapezoidal rule"
    | .midpoint => "explicit midpoint"

variable {R : Type}

/-- The number of samples that the coefficients refer to. -/
def depth (s : Multistep R) : Nat := max s.alpha.length s.beta.length - 1

/-- The coefficient of the slope at the next state. -/
def leading (s : Multistep R) : R := s.beta.head s.beta_ne_nil

/-- The scheme written out. -/
def inspect (s : Multistep Float) : String :=
  "Multistep \x7b alpha: " ++ Decimal.compactList s.alpha ++ ", beta: " ++
    Decimal.compactList s.beta ++ " \x7d"

variable [Scalar R]

open Scalar

/-- The scheme with given coefficients, if they make one. -/
def make (alpha beta : List R) : Except SchemeError (Multistep R) :=
  if hb : beta = [] then .error .emptyBeta
  else if (alpha ++ beta).any (!isFinite ·) then .error .nonFinite
  else if hl : 0 < max alpha.length beta.length - 1 then .ok ⟨alpha, beta, hb, hl⟩
  else .error .noLookback

/-- The scheme with a given name. -/
def ofPreset : Preset → Multistep R
  | .forwardEuler => ⟨[ofNat 0, ofNat 1], [ofNat 0, ofNat 1], by simp, by simp⟩
  | .backwardEuler => ⟨[ofNat 0, ofNat 1], [ofNat 1], by simp, by simp⟩
  | .trapezoidal => ⟨[ofNat 0, ofNat 1], [ratio 1 2, ratio 1 2], by simp, by simp⟩
  | .midpoint => ⟨[ofNat 0, ofNat 0, ofNat 1], [ofNat 0, ofNat 2], by simp, by simp⟩

/-- Whether the slope at the next state is left out. -/
def isExplicit (s : Multistep R) : Bool := abs s.leading ≤ singleGap

/-! ### The step -/

/-- What the recorded states contribute, newest first, added to `sum`. -/
def addStates (sum : Vec R) (alpha : List R) (recent : List (Sample R)) : Except Fault (Vec R) :=
  (alpha.zip recent).foldlM (fun sum (a, sample) => sum.add (sample.state.scale a)) sum

/-- What the recorded slopes contribute, newest first, added to `sum`. -/
def addSlopes (f : Field R) (k : R) (sum : Vec R) (beta : List R) (recent : List (Sample R)) :
    Except Fault (Vec R) :=
  (beta.zip recent).foldlM
    (fun sum (b, sample) => do sum.add ((← f sample.state sample.time).scale (k * b))) sum

/-- What the samples contribute to a next state of dimension `n`. -/
def known (s : Multistep R) (f : Field R) (k : R) (n : Nat) (recent : List (Sample R)) :
    Except Fault (Vec R) := do
  let states ← addStates (Vec.zero n) s.alpha.tail recent
  addSlopes f k states s.beta.tail recent

/-- The square of the difference that a next state `u` leaves in the equation of the
scheme, where `implicit` is the coefficient of its slope. -/
def residual (f : Field R) (known : Vec R) (implicit next : R) (u : Vec R) : Except Fault R := do
  let rest ← u.sub known
  let slope := (← f u next).scale implicit
  return (← rest.sub slope).normSquared

/-- The step from the last sample of a trajectory. -/
def step (s : Multistep R) (f : Field R) (h : Trajectory R) (last : Sample R) (k : R)
    (m : Descent.Minimiser R) : Step R :=
  match s.known f k last.state.length (h.recent s.depth) with
  | .error e => .explicit (.error e)
  | .ok known =>
    if s.isExplicit then .explicit (.ok known)
    else .implicit m (residual f known (k * s.leading) (last.time + k)) last.state id

end Multistep

end Stepwise.Ode
