import Stepwise.Scalar
import Stepwise.Fault
import Stepwise.Rounds

/-!
# Bracketing a minimum

To look for a minimum of a function of one parameter one first needs an interval that
holds one. The search starts at zero and advances in steps that double as long as the
function decreases. If already the first step does not pay, it retreats: it starts
again in the other direction. When a step stops paying, the minimum of a function that
has one lies between the point before the best one and the point that did not pay. What
is returned is the part of that from the best point on, and the minimum may lie in the
other part.

A first step too small to change the value by more than rounding says nothing about
the direction; it is doubled and tried again.

The search may use up its rounds. It then returns the best point and the one before it
all the same, in order, and says that the interval was not closed.
-/

namespace Stepwise.Descent

/-- An interval that a bracketing search found. -/
structure Bracket (R : Type) where
  /-- The lower end. -/
  low : R
  /-- The upper end. -/
  high : R
  /-- Whether the search ended because a step did not pay. -/
  closed : Bool

/-- How far a bracketing search has come. -/
structure Advance (R : Type) where
  /-- The next step, with its direction. -/
  step : R
  /-- The point before the best one. -/
  previous : R
  /-- The best point. -/
  reached : R
  /-- The least value so far. -/
  best : R
  /-- Whether no step has decided on a direction yet. -/
  fresh : Bool

variable {R : Type} [Scalar R]

open Scalar

/-- The interval between two points. -/
def Bracket.between (a b : R) (closed : Bool) : Bracket R :=
  if a ≤ b then ⟨a, b, closed⟩ else ⟨b, a, closed⟩

/-- A change of value that rounding alone may cause where the value is `start`: four
units in its last place. -/
def slack (start : R) : R := ofNat 4 * doubleGap * abs start

namespace Advance

/-- The search before its first step. -/
def begin (step start : R) : Advance R := ⟨step, ofNat 0, ofNat 0, start, true⟩

/-- One step along `φ`, whose value at zero is `start`. -/
def next (φ : R → Except Fault R) (start : R) (a : Advance R) :
    Except Fault (Round (Advance R) (Bracket R)) := do
  let previous := a.reached
  let reached := a.reached + a.step
  let value ← φ reached
  if a.fresh && abs (value - start) ≤ slack start then
    return .again { a with previous := previous, reached := ofNat 0, step := a.step * ofNat 2 }
  else if value < a.best then
    return .again ⟨a.step * ofNat 2, previous, reached, value, false⟩
  else if a.fresh then
    return .again ⟨-a.step, ofNat 0, ofNat 0, a.best, false⟩
  else
    return .done (.between previous reached true)

end Advance

/-- The bracketing search along `φ` with a given first step. -/
def Bracket.search (φ : R → Except Fault R) (step : R) (cap : Nat) : Except Fault (Bracket R) := do
  let start ← φ (ofNat 0)
  match rounds (fun _ a => .orFail (a.next φ start)) cap 0 (Advance.begin step start) with
  | .again a => return .between a.previous a.reached false
  | .done bracket => bracket

end Stepwise.Descent
