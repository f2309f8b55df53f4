import Stepwise.Ode.Multistep
import Stepwise.Ode.Tableau

/-!
# Schemes

A scheme is a linear multistep scheme or a Runge–Kutta scheme. The latter looks back no
further than the last sample.
-/

namespace Stepwise.Ode

/-- How to continue a trajectory by one step. -/
inductive Scheme (R : Type) where
  /-- By recorded states and slopes. -/
  | multistep (scheme : Multistep R)
  /-- By slopes inside the step. -/
  | rungeKutta (tableau : Tableau R)

namespace Scheme

variable {R : Type}

/-- The number of samples a scheme needs. -/
def depth : Scheme R → Nat
  | multistep s => s.depth
  | rungeKutta _ => 1

/-- The scheme written out; the coefficients of a tableau are not shown. -/
def inspect : Scheme Float → String
  | multistep s => "Multistep(" ++ s.inspect ++ ")"
  | rungeKutta _ => "RungeKutta(Tableau \x7b .. \x7d)"

variable [Scalar R]

/-- Whether the next state can be computed. -/
def isExplicit : Scheme R → Bool
  | multistep s => s.isExplicit
  | rungeKutta s => s.isExplicit

/-- The step from the last sample of a trajectory. -/
def step (f : Field R) (h : Trajectory R) (last : Sample R) (k : R) (m : Descent.Minimiser R) :
    Scheme R → Step R
  | multistep s => s.step f h last k m
  | rungeKutta s => s.step f last k m

end Scheme

end Stepwise.Ode
