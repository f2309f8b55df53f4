import Stepwise.Journal
import Stepwise.Descent.Bisection
import Stepwise.Descent.SlopeRoot

/-!
# Line searches

A line search goes from a point in a direction and returns the point where it lands.
The trivial one takes a fixed multiple of the direction as it is. All others first make
the direction one unit long and then search along that ray: by interval reduction or by
bisection inside a bracket, or by Newton's method on the slope.
-/

namespace Stepwise.Descent

variable {R : Type} [Scalar R]

/-- Where a line search lands. -/
structure Landing (R : Type) where
  /-- The point. -/
  point : Vec R
  /-- How the search along the ray ended, if there was one. -/
  hit? : Option (Hit R)

/-- What the journal says about a landing. -/
def Landing.journal (search : LineSearch) (landing : Landing R) : Journal R :=
  match landing.hit? with
  | none => #[]
  | some hit => #[.searchConverged search hit.iter hit.t]

/-- A breakdown as the error of a minimisation. -/
def Breakdown.fail {α : Type} (x : Except (Breakdown R) α) : Except (Failure (Error R)) α :=
  match x with
  | .error e => .error (.error (.breakdown e))
  | .ok a => .ok a

/-- The bracketing search along a ray. -/
def Ray.bracket (r : Ray R) (f : Oracle R) (s : Settings R) : Except Fault (Bracket R) :=
  Bracket.search (r.value f) s.step s.maxIters

/-- Interval reduction along a ray, at given rates. -/
def Ray.reduce (rates : Rates R) (f : Oracle R) (s : Settings R) (r : Ray R) :
    Except (Failure (Breakdown R)) (Option (Hit R)) := do
  let bracket ← r.bracket f s
  Reduction.search (r.value f) rates s.delta s.maxIters bracket

/-- Bisection along a ray. -/
def Ray.bisect (f : Oracle R) (s : Settings R) (r : Ray R) :
    Except (Failure (Breakdown R)) (Option (Hit R)) := do
  let bracket ← r.bracket f s
  Halving.search (r.value f) (r.slope f) s.epsilon s.delta s.maxIters bracket

/-- Newton's method along a ray. -/
def Ray.newton (f : Oracle R) (s : Settings R) (r : Ray R) :
    Except (Failure (Breakdown R)) (Option (Hit R)) :=
  r.slopeRoot f s.epsilon s.maxIters

/-- The landing of a search along the unit direction of `p`. -/
def landAlong (find : Ray R → Except (Failure (Breakdown R)) (Option (Hit R))) (s : Settings R)
    (x p : Vec R) : Except (Failure (Error R)) (Landing R) := do
  let ray ← Breakdown.fail (Ray.ofDirection x p)
  match ← (find ray).mapError (Failure.map .breakdown) with
  | none => throw (.error (.notConverged (.search s.search) s.maxIters))
  | some hit => return ⟨← ray.point hit.t, some hit⟩

/-- The line search of the settings, from `x` in direction `p`. -/
def lineSearch (f : Oracle R) (s : Settings R) (x p : Vec R) :
    Except (Failure (Error R)) (Landing R) :=
  match s.search with
  | .trivial => do return ⟨← (⟨x, p⟩ : Ray R).point s.trivialStep, none⟩
  | .goldenSection => landAlong (Ray.reduce .golden f s) s x p
  | .fibonacci => landAlong (Ray.reduce .fibonacci f s) s x p
  | .newton => landAlong (Ray.newton f s) s x p
  | .bisection => landAlong (Ray.bisect f s) s x p

end Stepwise.Descent
