import Stepwise.Descent.Settings

/-!
# How a minimisation fails

A minimisation fails for one of four reasons: there is nothing to minimise, the
settings make no sense, a loop reached its cap, or a method breaks down because a
quotient it needs has no meaning at the point reached. The error names the loop or the
quotient.
-/

namespace Stepwise.Descent

/-- The loops that can reach their cap. -/
inductive Loop where
  /-- A line search. -/
  | search (search : LineSearch)
  /-- The descent itself. -/
  | method (method : Method)
  deriving Repr, DecidableEq

/-- The loop in a sentence. -/
def Loop.title : Loop → String
  | .search s => Named.title s
  | .method m => Named.title m

/-- Why a method breaks down: which quotient has no meaning where it is needed. -/
inductive Breakdown (R : Type) where
  /-- The Hessian takes some direction to zero. -/
  | singularHessian
  /-- The slope along the search direction does not change at a usable rate. -/
  | curvature (value : R)
  /-- Step and gradient change are orthogonal, or their inner product is not finite. -/
  | curvaturePair (value : R)
  /-- The search direction has no usable length. -/
  | direction (length : R)

/-- Why a minimisation failed. -/
inductive Error (R : Type) where
  /-- There is no objective. -/
  | unbound
  /-- The settings make no sense. -/
  | settings (error : SettingsError)
  /-- A loop reached its cap. -/
  | notConverged (loop : Loop) (maxIters : Nat)
  /-- A method broke down. -/
  | breakdown (cause : Breakdown R)

/-- The breakdown in a sentence. -/
def Breakdown.message : Breakdown Float → String
  | .singularHessian => "the Hessian is singular"
  | .curvature value => "curvature along the search direction is " ++ Decimal.plain value
  | .curvaturePair value => "the BFGS update has s·y = " ++ Decimal.plain value
  | .direction length => "the search direction has length " ++ Decimal.plain length

/-- The error in a sentence. -/
def Error.message : Error Float → String
  | .unbound => "no objective is bound; call \x60set_function\x60 before solving"
  | .settings error => "invalid configuration: " ++ error.message
  | .notConverged loop maxIters =>
    loop.title ++ " did not converge within " ++ toString maxIters ++ " iterations"
  | .breakdown cause => "numerical degeneracy: " ++ cause.message

end Stepwise.Descent
