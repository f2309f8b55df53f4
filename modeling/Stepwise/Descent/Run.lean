import Stepwise.Observer
import Stepwise.Descent.Guide
import Stepwise.Descent.LineSearch

/-!
# Descent

A descent goes from iterate to iterate. At each one it notes the gradient's length and
the value, and tells the observer. If the gradient is as good as zero the iterate is the
solution, whatever the observer says; otherwise the descent stops if the observer asks
for it. If not, the guide chooses a direction, the line search a point in that
direction, and that point is the next iterate.

A descent ends with a report. Whichever way it ended, the report holds the journal and
what the observer remembers, up to the end.
-/

namespace Stepwise.Descent

/-- An iterate, as the observer sees it. -/
structure Visit (R : Type) where
  /-- The method that reached it. -/
  method : Method
  /-- Its number. -/
  iter : Nat
  /-- The point. -/
  point : Vec R
  /-- The objective there. -/
  objective : R
  /-- The length of the gradient there. -/
  gradientNorm : R

/-- What a descent found. -/
structure Solution (R : Type) where
  /-- Why it ended there. -/
  ending : Ending
  /-- The point. -/
  point : Vec R
  /-- The objective there. -/
  objective : R
  /-- The length of the gradient there. -/
  gradientNorm : R
  /-- The number of line searches that led there. -/
  iters : Nat

/-- How a descent went. -/
structure Report (R σ : Type) where
  /-- What it found, or why it failed. -/
  outcome : Except (Failure (Error R)) (Solution R)
  /-- What the observer remembers. -/
  observer : σ
  /-- What happened. -/
  journal : Journal R

/-- An iterate, and the guide there. -/
structure Standing (R : Type) where
  /-- The iterate. -/
  point : Vec R
  /-- The guide. -/
  guide : Guide R

/-- How far a descent has come. -/
structure Progress (R σ : Type) where
  /-- The current iterate. -/
  standing : Standing R
  /-- What the observer remembers. -/
  observer : σ
  /-- What happened so far. -/
  journal : Journal R

variable {R σ : Type} [Scalar R]

/-! ### From one iterate to the next -/

/-- The gradient at an iterate, and what there is to observe. -/
def Standing.observe (f : Oracle R) (s : Settings R) (iter : Nat) (here : Standing R) :
    Except Fault (Vec R × Visit R) := do
  let gradient ← here.guide.gradient f here.point
  let objective ← f.value here.point
  return (gradient, ⟨s.method, iter, here.point, objective, gradient.norm⟩)

/-- What the journal says about an iterate. -/
def Visit.record (e : Visit R) : Record R := .iterate e.method e.iter e.objective e.gradientNorm

/-- The iterate as a solution. -/
def Visit.solution (e : Visit R) (ending : Ending) : Solution R :=
  ⟨ending, e.point, e.objective, e.gradientNorm, e.iter⟩

/-- How a descent ends at an iterate, if it does. -/
def Visit.ending? (s : Settings R) (e : Visit R) (verdict : Verdict) : Option Ending :=
  if e.gradientNorm ≤ s.epsilon then some .converged
  else match verdict with
    | .stop => some .stopped
    | .proceed => none

/-- The landing of the line search in the guide's direction. -/
def Standing.land (f : Oracle R) (s : Settings R) (here : Standing R) (gradient : Vec R) :
    Except (Failure (Error R)) (Landing R) := do
  let direction ← (here.guide.direction f here.point gradient).mapError (Failure.map .breakdown)
  lineSearch f s here.point direction

/-- What the journal says about a guide that fails to follow. -/
def followJournal (iter : Nat) : Failure (Breakdown R) → Journal R
  | .fault _ => #[]
  | .error breakdown => #[.updateFailed iter breakdown]

/-- The next iterate, with what the journal says about the way there. -/
def Standing.move (f : Oracle R) (s : Settings R) (iter : Nat) (here : Standing R)
    (gradient : Vec R) : Journal R × Except (Failure (Error R)) (Standing R) :=
  match here.land f s gradient with
  | .error e => (#[], .error e)
  | .ok landing =>
    let journal := landing.journal s.search
    match here.guide.follow f here.point landing.point with
    | .error e => (journal ++ followJournal iter e, .error (e.map .breakdown))
    | .ok guide => (journal, .ok ⟨landing.point, guide⟩)

/-! ### The whole way -/

/-- One iterate: observed, perhaps the last, otherwise left behind. -/
def Progress.next (f : Oracle R) (s : Settings R) (observer : Observer (Visit R) σ) (iter : Nat)
    (p : Progress R σ) : Round (Progress R σ) (Report R σ) :=
  match p.standing.observe f s iter with
  | .error e => .done ⟨.error (.fault e), p.observer, p.journal⟩
  | .ok (gradient, event) =>
    let journal := p.journal.push event.record
    let (verdict, memory) := observer p.observer event
    match event.ending? s verdict with
    | some ending => .done ⟨.ok (event.solution ending), memory, journal⟩
    | none =>
      match p.standing.move f s iter gradient with
      | (entries, .error e) => .done ⟨.error e, memory, journal ++ entries⟩
      | (entries, .ok standing) => .again ⟨standing, memory, journal ++ entries⟩

/-- The descent from a point. -/
def descend (f : Oracle R) (s : Settings R) (observer : Observer (Visit R) σ) (memory : σ)
    (x : Vec R) : Report R σ :=
  match Guide.start f s.method x with
  | .error e => ⟨.error (.fault e), memory, #[]⟩
  | .ok guide =>
    match rounds (Progress.next f s observer) s.maxIters 0 ⟨⟨x, guide⟩, memory, #[]⟩ with
    | .done report => report
    | .again p =>
      ⟨.error (.error (.notConverged (.method s.method) s.maxIters)), p.observer, p.journal⟩

end Stepwise.Descent
