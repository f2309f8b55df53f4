import Stepwise.Descent.Error

/-!
# Journals

A run keeps a journal of what happened in it. `Stepwise.Record` lists the kinds of
entries with what they say; how an entry reads, and how much attention it wants, is
derived from it. The journal of a run that fails half-way holds the entries made so
far.
-/

namespace Stepwise

/-- How a minimisation that found a point came to its end. -/
inductive Descent.Ending where
  /-- The gradient is as good as zero. -/
  | converged
  /-- The observer asked to stop. -/
  | stopped
  deriving Repr, DecidableEq

/-- The name of an end. -/
def Descent.Ending.name : Descent.Ending → String
  | .converged => "Converged"
  | .stopped => "StoppedByObserver"

/-- An entry of a journal. -/
inductive Record (R : Type) where
  /-- A minimisation starts. -/
  | descentStarted (method : Descent.Method) (search : Descent.LineSearch) (dimension : Nat)
  /-- A minimisation reached an iterate. -/
  | iterate (method : Descent.Method) (iter : Nat) (objective gradientNorm : R)
  /-- A line search ended in round `iter` at parameter `t`. -/
  | searchConverged (search : Descent.LineSearch) (iter : Nat) (t : R)
  /-- The inverse Hessian could not be updated. -/
  | updateFailed (iter : Nat) (breakdown : Descent.Breakdown R)
  /-- A minimisation found a point. -/
  | descentFinished (ending : Descent.Ending) (iters : Nat) (objective gradientNorm : R)
  /-- A minimisation failed. -/
  | descentFailed (error : Descent.Error R)
  /-- An integration up to the time `finish` starts. -/
  | integrationStarted (finish step : R) (isExplicit : Bool) (samples : Nat)
  /-- The step to a time failed. -/
  | stepFailed (time : R) (cause : Descent.Error R)
  /-- The observer stopped an integration. -/
  | integrationStopped (steps : Nat) (time : R)
  /-- An integration is complete. -/
  | integrationFinished (steps : Nat) (time : R)

/-- The entries of a run, the oldest first. -/
abbrev Journal (R : Type) := Array (Record R)

/-! ### Reading an entry -/

/-- How much attention an entry wants. -/
inductive Level where
  /-- Of interest to who follows every round. -/
  | trace
  /-- Of interest to who follows a run. -/
  | debug
  /-- Something went wrong. -/
  | warn
  deriving Repr, DecidableEq

/-- The name of a level. -/
def Level.name : Level → String
  | .trace => "TRACE"
  | .debug => "DEBUG"
  | .warn => "WARN"

/-- A detail of an entry. -/
inductive Detail where
  /-- A text. -/
  | text (value : String)
  /-- A count. -/
  | count (value : Nat)
  /-- A number. -/
  | number (value : Float)
  /-- A truth value. -/
  | flag (value : Bool)

namespace Record

variable {R : Type}

/-- How much attention an entry wants. -/
def level : Record R → Level
  | iterate .. | searchConverged .. => .trace
  | updateFailed .. | descentFailed .. | stepFailed .. => .warn
  | descentStarted .. | descentFinished .. | integrationStarted .. | integrationStopped ..
  | integrationFinished .. => .debug

/-- What an entry says. -/
def message : Record R → String
  | descentStarted .. => "starting solve"
  | iterate .. => "iterate"
  | searchConverged .. => "line search converged"
  | updateFailed .. => "BFGS update broke down"
  | descentFinished .. => "solve finished"
  | descentFailed .. => "solve failed"
  | integrationStarted .. => "starting integration"
  | stepFailed .. => "integration step failed"
  | integrationStopped .. => "integration stopped by observer"
  | integrationFinished .. => "integration finished"

/-- The named details of an entry. -/
def details : Record Float → List (String × Detail)
  | descentStarted method search dimension =>
    [("method", .text (Named.title method)), ("line_search", .text (Named.title search)),
      ("dim", .count dimension)]
  | iterate method iter objective gradientNorm =>
    [("method", .text (Named.title method)), ("iter", .count iter),
      ("objective", .number objective), ("gradient_norm", .number gradientNorm)]
  | searchConverged search iter t =>
    [("line_search", .text (Named.title search)), ("iter", .count iter), ("t", .number t)]
  | updateFailed iter breakdown =>
    [("iter", .count iter), ("degeneracy", .text breakdown.message)]
  | descentFinished ending iters objective gradientNorm =>
    [("status", .text ending.name), ("iters", .count iters), ("objective", .number objective),
      ("gradient_norm", .number gradientNorm)]
  | descentFailed error => [("error", .text error.message)]
  | integrationStarted finish step isExplicit samples =>
    [("end", .number finish), ("k", .number step), ("explicit", .flag isExplicit),
      ("samples", .count samples)]
  | stepFailed time cause => [("time", .number time), ("source", .text cause.message)]
  | integrationStopped steps time | integrationFinished steps time =>
    [("steps", .count steps), ("time", .number time)]

end Record

end Stepwise
