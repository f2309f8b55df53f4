import Stepwise.Formula
import Stepwise.Objective
import Stepwise.Ode.Step

/-!
# Objectives and right-hand sides given by formulas

A list of formulas is a vector field, a list of rows of formulas a matrix that varies
from point to point. Objectives do not depend on the time; in their formulas it is zero.
-/

namespace Stepwise.Formula

variable {R : Type} [Scalar R]

/-- The vector field with given components. -/
def field (components : List (Formula R)) : Ode.Field R := fun v t =>
  components.mapM (eval v t)

/-- The value of a formula that does not depend on the time. -/
def atPoint (a : Formula R) (v : Vec R) : Except Fault R := a.eval v (Scalar.ofNat 0)

/-- The values of formulas that do not depend on the time. -/
def vectorAt (components : List (Formula R)) (v : Vec R) : Except Fault (Vec R) :=
  components.mapM (atPoint · v)

/-- The values of rows of formulas that do not depend on the time. -/
def matrixAt (rows : List (List (Formula R))) (v : Vec R) : Except Fault (Mat R) := do
  Mat.ofRows (← rows.mapM (vectorAt · v))

/-- The objective with a given value and perhaps derivatives. -/
def objective (value : Formula R) (gradient? : Option (List (Formula R)))
    (hessian? : Option (List (List (Formula R)))) : Objective R where
  value := value.atPoint
  gradient? := gradient?.map vectorAt
  hessian? := hessian?.map matrixAt

end Stepwise.Formula
