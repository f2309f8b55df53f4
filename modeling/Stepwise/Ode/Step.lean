import Stepwise.Descent.Minimiser
import Stepwise.Ode.Trajectory

/-!
# Steps

A scheme takes one step: from what is recorded to the next state. An explicit scheme
computes it. An implicit scheme only says what the next state has to satisfy, as a
residual that vanishes there; a minimiser then looks for a point where the residual is
stationary, from a given start. The minimiser's own objective, if it has one, plays no
part in that.
-/

namespace Stepwise.Ode

/-- The right-hand side of `u' = f(u, t)`. -/
abbrev Field (R : Type) := Vec R → R → Except Fault (Vec R)

/-- How a step went: what happened on the way, and the next state. -/
structure Step (R : Type) where
  /-- What happened. -/
  journal : Journal R
  /-- The next state. -/
  outcome : Except (Failure (Descent.Error R)) (Vec R)

variable {R : Type} [Scalar R]

/-- A step that is computed. -/
def Step.explicit (state : Except Fault (Vec R)) : Step R := ⟨#[], Failure.ofFault state⟩

/-- A step that minimises a residual from `start`; `read` takes the state out of the
minimiser's point. -/
def Step.implicit (m : Descent.Minimiser R) (residual : Vec R → Except Fault R) (start : Vec R)
    (read : Vec R → Vec R) : Step R :=
  let report := (m.withObjective { value := residual }).run Observer.silent () start
  ⟨report.journal, report.outcome.map fun solution => read solution.point⟩

end Stepwise.Ode
