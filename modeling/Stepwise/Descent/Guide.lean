import Stepwise.Linear.Elimination
import Stepwise.Objective
import Stepwise.Descent.Error

/-!
# Where to go

What distinguishes the descent methods is how they choose a direction from the gradient
and what they remember for it.

* Gradient descent goes against the gradient and remembers nothing.
* Newton's method solves the system that makes the second-order model stationary, and
  remembers nothing either.
* The quasi-Newton method keeps an estimate of the inverse Hessian, which it multiplies
  with the gradient. After every step the estimate is corrected so that it maps the
  change of the gradient to the step taken; that is the BFGS update
  `(I - s yᵀ / s·y) H (I - s yᵀ / s·y)ᵀ + s sᵀ / s·y`. The method also keeps the gradient
  itself, which the update had to evaluate.
-/

namespace Stepwise.Descent

/-- How a descent chooses its directions, with what it remembers for that. -/
inductive Guide (R : Type) where
  /-- Against the gradient. -/
  | steepest
  /-- By the Hessian. -/
  | newton
  /-- By the gradient and an estimate of the inverse Hessian at the current point. -/
  | quasiNewton (gradient : Vec R) (inverse : Mat R)

variable {R : Type} [Scalar R]

open Scalar

/-- The direction in which the second-order model with the given Hessian and gradient is
stationary, if there is just one and it is finite. -/
def newtonDirection (hessian : Mat R) (gradient : Vec R) :
    Except (Failure (Breakdown R)) (Vec R) := do
  match ← hessian.solve gradient.neg with
  | some direction =>
    if direction.isFinite then return direction else throw (.error .singularHessian)
  | none => throw (.error .singularHessian)

/-- The estimate `inverse` corrected by a step `s` along which the gradient changed by
`y`. -/
def updateInverse (inverse : Mat R) (s y : Vec R) :
    Except (Failure (Breakdown R)) (Mat R) := do
  let product ← Vec.dot s y
  if product == ofNat 0 || !isFinite product then throw (.error (.curvaturePair product))
  else
    let left ← (Mat.identity s.length).sub ((Mat.outer s y).divide product)
    let conjugated ← (← left.mul inverse).mul left.transpose
    conjugated.add ((Mat.outer s s).divide product)

namespace Guide

/-- The guide of a method at its starting point. -/
def start (f : Oracle R) (method : Method) (x : Vec R) : Except Fault (Guide R) :=
  match method with
  | .gradientDescent => .ok .steepest
  | .newton => .ok .newton
  | .quasiNewton => do return .quasiNewton (← f.gradient x) (Mat.identity x.length)

/-- The gradient at the current point. -/
def gradient (f : Oracle R) (x : Vec R) : Guide R → Except Fault (Vec R)
  | steepest => f.gradient x
  | newton => f.gradient x
  | quasiNewton gradient _ => .ok gradient

/-- The direction to take from the current point, where the gradient is known. -/
def direction (f : Oracle R) (x gradient : Vec R) :
    Guide R → Except (Failure (Breakdown R)) (Vec R)
  | steepest => .ok gradient.neg
  | newton => do newtonDirection (← f.hessian x) gradient
  | quasiNewton _ inverse => do return (← inverse.mulVec gradient).neg

/-- The guide at the next point. -/
def follow (f : Oracle R) (x next : Vec R) : Guide R → Except (Failure (Breakdown R)) (Guide R)
  | steepest => .ok .steepest
  | newton => .ok .newton
  | quasiNewton gradient inverse => do
    let nextGradient ← f.gradient next
    let s ← next.sub x
    let y ← nextGradient.sub gradient
    return .quasiNewton nextGradient (← updateInverse inverse s y)

end Guide

end Stepwise.Descent
