import Stepwise.Descent.Settings
import Stepwise.Json.Named

/-!
# Settings as text

Settings are kept in JSON texts. They are an object with seven members in any order,
or the list of the seven values in the order of `Stepwise.Descent.Settings`. An
object may have other members, but each of the seven occurs once, and all names have
to be proper texts. A number may be written as a whole number or not, with two
restrictions: counts are whole and fit in 64 bits, other numbers are not beyond all
doubles.
-/

namespace Stepwise.Descent.Settings

open Json

/-- The settings with given values for the seven numbers and choices, in order. -/
def ofValues? : List Value → Option (Settings Float)
  | [maxIters, epsilon, step, delta, trivialStep, search, method] => do
    return {
      maxIters := ← maxIters.toCount?
      epsilon := ← epsilon.toFloat?
      step := ← step.toFloat?
      delta := ← delta.toFloat?
      trivialStep := ← trivialStep.toFloat?
      search := ← Named.ofJson? search
      method := ← Named.ofJson? method }
  | _ => none

/-- The names of the seven values, in order. -/
def names : List String :=
  ["max_iters", "epsilon", "step", "delta", "trivial_step", "line_search", "method"]

/-- The value of the only member with a given name. -/
def only? (members : List (Option String × Value)) (name : String) : Option Value :=
  match members.filter fun m => m.1 == some name with
  | [(_, value)] => some value
  | _ => none

/-- The settings that a JSON value holds. -/
def ofJson? : Value → Option (Settings Float)
  | .array items => ofValues? items
  | .object members =>
    if members.all fun m => m.1.isSome then do ofValues? (← names.mapM (only? members)) else none
  | _ => none

end Stepwise.Descent.Settings
