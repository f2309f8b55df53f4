import Stepwise.Descent.Bracket

/-!
# Interval reduction

A unimodal function is compared at two points inside an interval; the minimum cannot
lie beyond the worse of them, so the interval ends there from now on. The better point
stays inside the smaller interval, and if the points sit at the right rate it is one
of the next two, so that each round evaluates the function only once.

The rates are a parameter. The golden ratio keeps one rate for ever; the quotients of
Fibonacci numbers change from round to round and converge to it. Since a changing rate
can bring the two points in the wrong order, they are exchanged when it does.

The search ends when the part of the interval that a comparison leaves is narrower
than a tolerance, which is relative to the width the search started with, but for that
purpose no width counts as more than one.
-/

namespace Stepwise.Descent

/-- The rates of an interval reduction: the first one, and how one follows from
another. -/
structure Rates (R : Type) where
  /-- The first rate. -/
  first : R
  /-- The rate after a given one. -/
  next : R → R

/-- A parameter, and the function's value there. -/
structure Probe (R : Type) where
  /-- The parameter. -/
  t : R
  /-- The value. -/
  value : R

/-- Where a search along a ray ended: at a parameter, in a round. -/
structure Hit (R : Type) where
  /-- The number of the round. -/
  iter : Nat
  /-- The parameter. -/
  t : R

/-- An interval with two points inside. -/
structure Reduction (R : Type) where
  /-- The lower end. -/
  left : R
  /-- The upper end. -/
  right : R
  /-- The point inside that comes first. -/
  lower : Probe R
  /-- The point inside that comes second. -/
  upper : Probe R
  /-- The rate at which the next point is placed. -/
  rate : R

variable {R : Type} [Scalar R]

open Scalar

/-! ### The two families of rates -/

/-- One less than the golden ratio, for ever. -/
def Rates.golden : Rates R := ⟨ratio 1618033988749895 1000000000000000 - ofNat 1, id⟩

/-- Quotients of neighbouring Fibonacci numbers, from three fifths on. -/
def Rates.fibonacci : Rates R := ⟨ratio 3 5, fun rate => ofNat 1 / (ofNat 1 + rate)⟩

/-- The function evaluated at a parameter. -/
def Probe.at (φ : R → Except Fault R) (t : R) : Except Fault (Probe R) := do
  return ⟨t, ← φ t⟩

/-- The width below which an interval counts as a point, for a search that starts with
a given width. -/
def tolerance (delta width : R) : R := delta * clamp width leastNormal (ofNat 1)

namespace Reduction

/-- The two points inside an interval at the start. -/
def start (φ : R → Except Fault R) (rate : R) (bracket : Bracket R) :
    Except Fault (Reduction R) := do
  let left := bracket.low
  let right := bracket.high
  let lower ← Probe.at φ (right + rate * (left - right))
  let upper ← Probe.at φ (left + rate * (right - left))
  return ⟨left, right, lower, upper, rate⟩

/-- The interval without the part below the first point. -/
def dropLeft (φ : R → Except Fault R) (s : Reduction R) : Except Fault (Reduction R) := do
  let left := s.lower.t
  let upper ← Probe.at φ (left + s.rate * (s.right - left))
  return { s with left := left, lower := s.upper, upper := upper }

/-- The interval without the part above the second point. -/
def dropRight (φ : R → Except Fault R) (s : Reduction R) : Except Fault (Reduction R) := do
  let right := s.upper.t
  let lower ← Probe.at φ (right + s.rate * (s.left - right))
  return { s with right := right, upper := s.lower, lower := lower }

/-- The two points in order. -/
def inOrder (s : Reduction R) : Reduction R :=
  if s.upper.t < s.lower.t then { s with lower := s.upper, upper := s.lower } else s

/-- The interval ready for another round. -/
def renew (nextRate : R → R) (s : Reduction R) : Reduction R :=
  { s.inOrder with rate := nextRate s.rate }

/-- One round of the reduction. -/
def next (φ : R → Except Fault R) (nextRate : R → R) (tol : R) (iter : Nat) (s : Reduction R) :
    Except Fault (Round (Reduction R) (Hit R)) :=
  if s.upper.value < s.lower.value then
    if s.right - s.lower.t < tol then .ok (.done ⟨iter, s.upper.t⟩)
    else do return .again ((← s.dropLeft φ).renew nextRate)
  else
    if s.upper.t - s.left < tol then .ok (.done ⟨iter, s.lower.t⟩)
    else do return .again ((← s.dropRight φ).renew nextRate)

/-- The reduction of a bracket along `φ`; nothing if the rounds are used up. -/
def search (φ : R → Except Fault R) (rates : Rates R) (delta : R) (cap : Nat)
    (bracket : Bracket R) : Except Fault (Option (Hit R)) := do
  let tol := tolerance delta (bracket.high - bracket.low)
  let s ← start φ rates.first bracket
  match rounds (fun iter s => .orFail (s.next φ rates.next tol iter)) cap 0 s with
  | .again _ => return none
  | .done hit => return some (← hit)

end Reduction

end Stepwise.Descent
