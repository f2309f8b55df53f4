import Stepwise.Descent.Reduction

/-!
# Bisection of the slope

Where the slope of a function changes its sign there is a stationary point. The search
halves an interval and keeps the half across which the sign changes, as judged by the
slope at its left end and the slope in its middle. It ends when the interval is
narrower than the tolerance, or when the value or the slope in the middle is as good as
zero.
-/

namespace Stepwise.Descent

/-- An interval whose middle is looked at next. -/
structure Halving (R : Type) where
  /-- The lower end. -/
  left : R
  /-- The upper end. -/
  right : R
  /-- The slope at the lower end. -/
  leftSlope : R
  /-- The middle. -/
  mid : R

variable {R : Type} [Scalar R]

open Scalar

namespace Halving

/-- The middle between two numbers. -/
def middle (a b : R) : R := ratio 1 2 * (a + b)

/-- Whether two slopes are both positive, or neither is. -/
def sameSide (a b : R) : Bool := decide (ofNat 0 < a) == decide (ofNat 0 < b)

/-- The half across which the sign of the slope changes. -/
def half (midSlope : R) (s : Halving R) : Halving R :=
  if sameSide midSlope s.leftSlope then ⟨s.mid, s.right, midSlope, middle s.mid s.right⟩
  else ⟨s.left, s.mid, s.leftSlope, middle s.left s.mid⟩

/-- Whether the middle is good enough. The value is asked for only if the interval is
still wide. -/
def settled (φ : R → Except Fault R) (epsilon tol midSlope : R) (s : Halving R) :
    Except Fault Bool :=
  if s.right - s.left < tol then .ok true
  else do return abs (← φ s.mid) < epsilon || abs midSlope < epsilon

/-- One halving. -/
def next (φ slope : R → Except Fault R) (epsilon tol : R) (iter : Nat) (s : Halving R) :
    Except Fault (Round (Halving R) (Hit R)) := do
  let midSlope ← slope s.mid
  if ← s.settled φ epsilon tol midSlope then return .done ⟨iter, s.mid⟩
  else return .again (s.half midSlope)

/-- The bisection of a bracket; nothing if the rounds are used up. -/
def search (φ slope : R → Except Fault R) (epsilon delta : R) (cap : Nat) (bracket : Bracket R) :
    Except Fault (Option (Hit R)) := do
  let left := bracket.low
  let right := bracket.high
  let tol := tolerance delta (right - left)
  let leftSlope ← slope left
  let s : Halving R := ⟨left, right, leftSlope, middle left right⟩
  match rounds (fun iter s => .orFail (s.next φ slope epsilon tol iter)) cap 0 s with
  | .again _ => return none
  | .done hit => return some (← hit)

end Halving

end Stepwise.Descent
