import Stepwise.Named
import Stepwise.Json.Value

/-!
# Named alternatives in JSON

A value refers to an alternative by its name alone, or by an object whose only member
has that name and the value `null`.
-/

namespace Stepwise.Named

open Json

/-- The alternative that a value refers to. -/
def ofJson? {α : Type} [Named α] : Value → Option α
  | .text (some name) => ofName? name
  | .object [(some name, .null)] => ofName? name
  | _ => none

end Stepwise.Named
