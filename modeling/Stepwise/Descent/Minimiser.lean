import Stepwise.Descent.Run

/-!
# Minimisers

A minimiser holds settings and, once it is given one, an objective. Before it works it
checks the settings, then looks for the objective, and completes it with differences at
the step of the settings. It does not change by being used.
-/

namespace Stepwise.Descent

/-- Settings, and perhaps an objective. -/
structure Minimiser (R : Type) where
  /-- The settings. -/
  settings : Settings R
  /-- The objective, if there is one. -/
  objective? : Option (Objective R)

namespace Minimiser

variable {R σ : Type}

/-! ### Setting up -/

/-- The minimiser with given settings and no objective. -/
def ofSettings (s : Settings R) : Minimiser R := ⟨s, none⟩

/-- The minimiser with other settings. -/
def withSettings (m : Minimiser R) (s : Settings R) : Minimiser R := { m with settings := s }

/-- The minimiser with another objective. -/
def withObjective (m : Minimiser R) (f : Objective R) : Minimiser R :=
  { m with objective? := some f }

/-- The minimiser written out. -/
def inspect (m : Minimiser Float) : String :=
  "Optimizer \x7b config: " ++ m.settings.inspect ++ ", objective: " ++
    (match m.objective? with
      | none => "None"
      | some f => "Some(" ++ f.inspect ++ ")") ++ " \x7d"

variable [Scalar R]

/-- The minimiser with default settings and no objective. -/
def new : Minimiser R := .ofSettings .default

/-! ### Working -/

/-- The completed objective, if the settings make sense and there is one. -/
def oracle (m : Minimiser R) : Except (Error R) (Oracle R) :=
  match m.settings.check with
  | .error e => .error (.settings e)
  | .ok () =>
    match m.objective? with
    | none => .error .unbound
    | some f => .ok (f.complete m.settings.step)

/-- The line search from `x` in direction `p`. -/
def search (m : Minimiser R) (x p : Vec R) : Except (Failure (Error R)) (Landing R) := do
  lineSearch (← Failure.ofError m.oracle) m.settings x p

/-- The entry that ends the journal of a descent; a fault leaves none. -/
def closing : Except (Failure (Error R)) (Solution R) → Journal R
  | .ok s => #[.descentFinished s.ending s.iters s.objective s.gradientNorm]
  | .error (.error e) => #[.descentFailed e]
  | .error (.fault _) => #[]

/-- The descent from `x`, observed. -/
def run (m : Minimiser R) (observer : Observer (Visit R) σ) (memory : σ) (x : Vec R) :
    Report R σ :=
  match m.oracle with
  | .error e => ⟨.error (.error e), memory, #[]⟩
  | .ok f =>
    let opening := #[.descentStarted m.settings.method m.settings.search x.length]
    let report := descend f m.settings observer memory x
    { report with journal := opening ++ report.journal ++ closing report.outcome }

end Minimiser

end Stepwise.Descent
