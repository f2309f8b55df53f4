import Stepwise.Descent.Error
import Stepwise.Ode.Trajectory

/-!
# How an integration fails

An integration needs a right-hand side, a scheme, and a trajectory that the scheme can
continue; each can be missing or wrong. A step fails if the minimisation behind an
implicit scheme does; the error then carries the time the step was to reach.
-/

namespace Stepwise.Ode

/-- What is wrong with the coefficients of a scheme. -/
inductive SchemeError where
  /-- There is no coefficient for the slopes. -/
  | emptyBeta
  /-- No coefficient refers to a sample. -/
  | noLookback
  /-- There is no stage. -/
  | noStages
  /-- The matrix is not square of the right size. -/
  | matrixShape (stages rows columns : Nat)
  /-- There are too few or too many nodes. -/
  | nodeCount (stages found : Nat)
  /-- A coefficient is not a number. -/
  | nonFinite
  deriving Repr, DecidableEq

/-- The error in a sentence. -/
def SchemeError.message : SchemeError → String
  | .emptyBeta => "beta must hold at least one coefficient"
  | .noLookback => "the scheme must look back at least one sample"
  | .noStages => "the tableau must have at least one stage"
  | .matrixShape stages rows columns =>
    "a " ++ toString rows ++ "×" ++ toString columns ++ " matrix does not fit " ++
      toString stages ++ " stages"
  | .nodeCount stages found =>
    "c has " ++ toString found ++ " nodes for " ++ toString stages ++ " stages"
  | .nonFinite => "coefficients must be finite"

/-- Why an integration failed. -/
inductive Error (R : Type) where
  /-- There is no right-hand side. -/
  | missingField
  /-- There is no scheme. -/
  | missingScheme
  /-- The trajectory cannot be continued, or not be asked. -/
  | trajectory (error : TrajectoryError R)
  /-- The coefficients make no scheme. -/
  | scheme (error : SchemeError)
  /-- The step to a time failed. -/
  | step (time : R) (cause : Descent.Error R)

/-- The error in a sentence. -/
def Error.message : Error Float → String
  | .missingField => "no right-hand side is set; call \x60set_rhs\x60 before solving"
  | .missingScheme => "no scheme is set; call \x60set_method\x60 before solving"
  | .trajectory error => "invalid history: " ++ error.message
  | .scheme error => "invalid scheme: " ++ error.message
  | .step time cause => "step to t = " ++ Decimal.plain time ++ " failed: " ++ cause.message

end Stepwise.Ode
