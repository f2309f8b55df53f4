/-!
# Named alternatives

Some types are nothing but a choice between a few alternatives. Each alternative has
a name, by which data refer to it, and a title, by which sentences do.
-/

namespace Stepwise

/-- A type of finitely many named alternatives. -/
class Named (α : Type) where
  /-- All alternatives. -/
  all : List α
  /-- The name of an alternative. -/
  name : α → String
  /-- What an alternative is called in a sentence. -/
  title : α → String

/-- The alternative with a given name. -/
def Named.ofName? {α : Type} [Named α] (name : String) : Option α :=
  (Named.all (α := α)).find? fun a => Named.name a == name

end Stepwise
