import Stepwise.Objective
import Stepwise.Descent.Error

/-!
# Rays

A line search looks at the objective along a ray: from a point, in a direction, at a
parameter that says how far. All searches but the trivial one walk along a direction
of length one, so that the parameter is a distance.
-/

namespace Stepwise.Descent

/-- A point and a direction. -/
structure Ray (R : Type) where
  /-- Where the ray starts. -/
  origin : Vec R
  /-- Where it goes. -/
  heading : Vec R

namespace Ray

variable {R : Type} [Scalar R]

/-- The point at a parameter. -/
def point (r : Ray R) (t : R) : Except Fault (Vec R) := r.origin.add (r.heading.scale t)

/-- The objective at a parameter. -/
def value (r : Ray R) (f : Oracle R) (t : R) : Except Fault R := do f.value (← r.point t)

/-- The slope at a parameter. -/
def slope (r : Ray R) (f : Oracle R) (t : R) : Except Fault R := do
  (← f.gradient (← r.point t)).dot r.heading

/-- The ray in a direction made one unit long, if its length allows that. -/
def ofDirection (x p : Vec R) : Except (Breakdown R) (Ray R) :=
  let length := p.norm
  if Scalar.ofNat 0 < length && Scalar.isFinite length then .ok ⟨x, p.divide length⟩
  else .error (.direction length)

end Ray

end Stepwise.Descent
