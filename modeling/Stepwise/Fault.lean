/-!
# Calculations without a value

Vectors carry no dimension in their type, so a calculation may meet sizes that do
not fit together. It then has no value and says why: that is a
`Stepwise.Fault`. A fault is not one of the errors that a method reports about its
input; it ends whatever calculation it happens in.

`Stepwise.Failure` puts the two side by side for calculations that may end either
way. A calculation that can only meet faults runs inside one that can fail in both
ways without further ado.
-/

namespace Stepwise

/-- Why a calculation has no value. -/
inductive Fault where
  /-- Two vectors that had to be equally long were not. -/
  | lengths (left right : Nat)
  /-- A component was asked for that the vector does not have. -/
  | component (index size : Nat)
  /-- A matrix met a vector or a matrix it does not fit. -/
  | shape (rows columns size : Nat)
  deriving Repr, DecidableEq

/-- How a calculation can fail: by a fault, or with an error it reports. -/
inductive Failure (ε : Type) where
  /-- Sizes did not fit together. -/
  | fault (fault : Fault)
  /-- The calculation reports an error. -/
  | error (error : ε)
  deriving Repr

namespace Failure

variable {ε δ α : Type}

/-- The same failure, its error read as another kind of error. -/
def map (f : ε → δ) : Failure ε → Failure δ
  | .fault e => .fault e
  | .error e => .error (f e)

/-- A calculation that can only meet faults, as one that may also report errors. -/
def ofFault : Except Fault α → Except (Failure ε) α
  | .error e => .error (.fault e)
  | .ok a => .ok a

/-- A calculation that can only report errors, as one that may also meet faults. -/
def ofError : Except ε α → Except (Failure ε) α
  | .error e => .error (.error e)
  | .ok a => .ok a

instance : MonadLift (Except Fault) (Except (Failure ε)) := ⟨ofFault⟩

end Failure

end Stepwise
