import Stepwise.Scalar
import Stepwise.Named
import Stepwise.Decimal.Layout

/-!
# Settings of a minimisation

A minimisation is set up by a method, which chooses directions, a line search, which
chooses how far to go, and five numbers. The numbers have to make sense:
`Stepwise.Descent.Settings.check` names the first one that does not.

The default tolerances are the gap of single-precision numbers at `1`; the default
step is the geometric mean of the gaps of single and of double precision.
-/

namespace Stepwise.Descent

/-- How far to go along a direction. -/
inductive LineSearch where
  /-- A fixed multiple of the direction. -/
  | trivial
  /-- Interval reduction by the golden ratio. -/
  | goldenSection
  /-- Interval reduction by quotients of Fibonacci numbers. -/
  | fibonacci
  /-- Newton's method on the slope. -/
  | newton
  /-- Bisection on the sign of the slope. -/
  | bisection
  deriving Repr, DecidableEq

/-- Which direction to take. -/
inductive Method where
  /-- Against the gradient. -/
  | gradientDescent
  /-- To the minimiser of the second-order model. -/
  | newton
  /-- By an inverse Hessian that is learnt from the gradients (BFGS). -/
  | quasiNewton
  deriving Repr, DecidableEq

instance : Named LineSearch where
  all := [.trivial, .goldenSection, .fibonacci, .newton, .bisection]
  name
    | .trivial => "Trivial"
    | .goldenSection => "GoldenSection"
    | .fibonacci => "Fibonacci"
    | .newton => "Newton"
    | .bisection => "Bisection"
  title
    | .trivial => "trivial line search"
    | .goldenSection => "golden section line search"
    | .fibonacci => "Fibonacci line search"
    | .newton => "Newton line search"
    | .bisection => "bisection line search"

instance : Named Method where
  all := [.gradientDescent, .newton, .quasiNewton]
  name
    | .gradientDescent => "GradientDescent"
    | .newton => "Newton"
    | .quasiNewton => "QuasiNewton"
  title
    | .gradientDescent => "gradient descent"
    | .newton => "Newton's method"
    | .quasiNewton => "BFGS"

/-- What a minimisation is set up with. -/
structure Settings (R : Type) where
  /-- The cap on the rounds of every loop. -/
  maxIters : Nat
  /-- A gradient no longer than this is taken for zero. -/
  epsilon : R
  /-- The step of difference quotients, and the first step of a bracketing search. -/
  step : R
  /-- The relative width at which an interval counts as a point. -/
  delta : R
  /-- The multiple of the direction that the trivial line search takes. -/
  trivialStep : R
  /-- How far to go. -/
  search : LineSearch
  /-- Which way to go. -/
  method : Method

/-- Which of the numbers of a minimisation's settings makes no sense. -/
inductive SettingsError where
  /-- No rounds at all. -/
  | maxIters
  /-- A tolerance that is negative or not finite. -/
  | epsilon
  /-- A step that is not positive or not finite. -/
  | step
  /-- A relative width that is negative or not finite. -/
  | delta
  /-- A multiple that is not finite. -/
  | trivialStep
  deriving Repr, DecidableEq

/-- The error in a sentence. -/
def SettingsError.message : SettingsError → String
  | .maxIters => "max_iters must be at least 1"
  | .epsilon => "epsilon must be finite and non-negative"
  | .step => "step must be finite and positive"
  | .delta => "delta must be finite and non-negative"
  | .trivialStep => "trivial_step must be finite"

namespace Settings

variable {R : Type} [Scalar R]

open Scalar

/-- The settings that hold where nothing else is said. -/
def default : Settings R where
  maxIters := 32767
  epsilon := singleGap
  step := sqrt (singleGap * doubleGap)
  delta := singleGap
  trivialStep := ratio 1 127
  search := .fibonacci
  method := .quasiNewton

/-- Accepts settings whose numbers make sense. -/
def check (s : Settings R) : Except SettingsError Unit :=
  if s.maxIters = 0 then .error .maxIters
  else if !isFinite s.epsilon || s.epsilon < ofNat 0 then .error .epsilon
  else if !isFinite s.step || s.step ≤ ofNat 0 then .error .step
  else if !isFinite s.delta || s.delta < ofNat 0 then .error .delta
  else if !isFinite s.trivialStep then .error .trivialStep
  else .ok ()

/-- The settings written out. -/
def inspect (s : Settings Float) : String :=
  "Config \x7b max_iters: " ++ toString s.maxIters ++ ", epsilon: " ++ Decimal.compact s.epsilon ++
    ", step: " ++ Decimal.compact s.step ++ ", delta: " ++ Decimal.compact s.delta ++
    ", trivial_step: " ++ Decimal.compact s.trivialStep ++ ", line_search: " ++
    Named.name s.search ++ ", method: " ++ Named.name s.method ++ " \x7d"

end Settings

end Stepwise.Descent
