import Stepwise.Differences

/-!
# Objectives

An objective is a function to be minimised. Its gradient and its Hessian may be
supplied with it or not. The methods ask for all three, so an objective is completed
before it is minimised: what is missing is filled in by central differences, the
Hessian from the gradient, wherever that came from. The result is an oracle, which
answers every question a method has about the function.
-/

namespace Stepwise

/-- A function to be minimised, perhaps with derivatives. -/
structure Objective (R : Type) where
  /-- The value at a point. -/
  value : Vec R → Except Fault R
  /-- The gradient at a point, if it is supplied. -/
  gradient? : Option (Vec R → Except Fault (Vec R)) := none
  /-- The Hessian at a point, if it is supplied. -/
  hessian? : Option (Vec R → Except Fault (Mat R)) := none

/-- All that a method asks about a function. -/
structure Oracle (R : Type) where
  /-- The value at a point. -/
  value : Vec R → Except Fault R
  /-- The gradient at a point. -/
  gradient : Vec R → Except Fault (Vec R)
  /-- The Hessian at a point. -/
  hessian : Vec R → Except Fault (Mat R)

namespace Objective

variable {R : Type}

/-- The objective with its missing derivatives filled in by differences with step
`h`. -/
def complete [Scalar R] (f : Objective R) (h : R) : Oracle R :=
  let gradient := f.gradient?.getD (centralGradient f.value h)
  { value := f.value
    gradient := gradient
    hessian := f.hessian?.getD (centralJacobian gradient h) }

/-- The objective written out: which derivatives are supplied. -/
def inspect (f : Objective R) : String :=
  "Objective \x7b gradient: " ++ toString f.gradient?.isSome ++ ", hessian: " ++
    toString f.hessian?.isSome ++ ", .. \x7d"

end Objective

/-- An oracle written out: it shows nothing. -/
def Oracle.inspect {R : Type} (_ : Oracle R) : String := "BoundObjective \x7b .. \x7d"

end Stepwise
