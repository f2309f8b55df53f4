import Stepwise.Descent.Ray
import Stepwise.Descent.Reduction

/-!
# Newton's method on the slope

The slope along a ray is a function of one parameter; where it vanishes the ray meets a
stationary point. Newton's method looks for such a parameter from zero, dividing the
slope by the curvature along the ray. It ends when the slope or the whole gradient is
as good as zero, and it fails where the curvature is zero or not finite.
-/

namespace Stepwise.Descent

variable {R : Type} [Scalar R]

open Scalar

namespace Ray

/-- The curvature along the ray at a point of it. -/
def curvature (r : Ray R) (f : Oracle R) (point : Vec R) : Except Fault R := do
  let change ← (← f.hessian point).mulVec r.heading
  Vec.dot change r.heading

/-- One Newton step on the slope, from parameter `t`. -/
def newtonStep (r : Ray R) (f : Oracle R) (epsilon : R) (iter : Nat) (t : R) :
    Except (Failure (Breakdown R)) (Round R (Hit R)) := do
  let point ← r.point t
  let gradient ← f.gradient point
  let slope ← Vec.dot gradient r.heading
  if abs slope < epsilon || gradient.norm < epsilon then return .done ⟨iter, t⟩
  else
    let curvature ← r.curvature f point
    if curvature == ofNat 0 || !isFinite curvature then throw (.error (.curvature curvature))
    else return .again (t - slope / curvature)

/-- A stationary point of the ray; nothing if the rounds are used up. -/
def slopeRoot (r : Ray R) (f : Oracle R) (epsilon : R) (cap : Nat) :
    Except (Failure (Breakdown R)) (Option (Hit R)) :=
  match rounds (fun iter t => .orFail (r.newtonStep f epsilon iter t)) cap 0 (ofNat 0) with
  | .again _ => .ok none
  | .done hit => do return some (← hit)

end Ray

end Stepwise.Descent
