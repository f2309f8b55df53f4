import Stepwise.Linear.Vector

/-!
# Formulas

A formula is an expression in the components of a vector and in the time, built from
the operations that are correctly rounded over doubles. Objectives and right-hand
sides can be given by formulas, so that what they evaluate to is the same on every
machine.

Evaluation follows the formula from the inside out. Of the two branches of a
comparison only the chosen one is evaluated; a comparison with an undefined number
fails. A component that the vector does not have is a fault.
-/

namespace Stepwise

/-- An expression in the components of a vector and the time. -/
inductive Formula (R : Type) where
  /-- A constant. -/
  | const (value : R)
  /-- A component of the vector. -/
  | component (index : Nat)
  /-- The time. -/
  | time
  /-- A sum. -/
  | add (a b : Formula R)
  /-- A difference. -/
  | sub (a b : Formula R)
  /-- A product. -/
  | mul (a b : Formula R)
  /-- A quotient. -/
  | div (a b : Formula R)
  /-- The opposite. -/
  | neg (a : Formula R)
  /-- The absolute value. -/
  | abs (a : Formula R)
  /-- The square root. -/
  | sqrt (a : Formula R)
  /-- The greatest whole number that is not above. -/
  | floor (a : Formula R)
  /-- A whole power. -/
  | pow (a : Formula R) (exponent : Nat)
  /-- The third formula if the first is less than the second, otherwise the fourth. -/
  | ifLess (a b c d : Formula R)

namespace Formula

variable {R : Type} [Scalar R]

/-- The product of `n` copies of a number, formed from the left; one if `n` is zero. -/
def power (a : R) : Nat → R
  | 0 => Scalar.ofNat 1
  | n + 1 => (List.replicate n a).foldl (· * ·) a

/-- The value of a formula at a vector and a time. -/
def eval (v : Vec R) (t : R) : Formula R → Except Fault R
  | const a => .ok a
  | component i => v.component i
  | time => .ok t
  | add a b => do return (← a.eval v t) + (← b.eval v t)
  | sub a b => do return (← a.eval v t) - (← b.eval v t)
  | mul a b => do return (← a.eval v t) * (← b.eval v t)
  | div a b => do return (← a.eval v t) / (← b.eval v t)
  | neg a => do return -(← a.eval v t)
  | abs a => do return Scalar.abs (← a.eval v t)
  | sqrt a => do return Scalar.sqrt (← a.eval v t)
  | floor a => do return Scalar.floor (← a.eval v t)
  | pow a n => do return power (← a.eval v t) n
  | ifLess a b c d => do
    let x ← a.eval v t
    let y ← b.eval v t
    if x < y then c.eval v t else d.eval v t

end Formula

end Stepwise
