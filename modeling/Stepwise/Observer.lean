/-!
# Observers

A run reports what happens to an observer and lets it decide whether to go on. An
observer may remember things: it answers an event with a verdict and with what it
remembers from then on.
-/

namespace Stepwise

/-- What an observer decides. -/
inductive Verdict where
  /-- The run goes on. -/
  | proceed
  /-- The run is to stop here. -/
  | stop
  deriving Repr, DecidableEq

/-- An observer of events of type `ε` with memory of type `σ`. -/
abbrev Observer (ε σ : Type) := σ → ε → Verdict × σ

/-- The observer that never objects and remembers nothing. -/
def Observer.silent {ε : Type} : Observer ε Unit := fun _ _ => (.proceed, ())

/-- The observer that remembers the first `count` events, and stops the run at the event
with a certain number, if one is given. -/
def Observer.keeping {ε : Type} (count : Nat) (number : ε → Nat) (stopAt? : Option Nat) :
    Observer ε (Array ε) := fun kept event =>
  (if stopAt? = some (number event) then .stop else .proceed,
    if kept.size < count then kept.push event else kept)

end Stepwise
