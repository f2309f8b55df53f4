import Stepwise.Proofs.Ode.Indices

/-!
# Nothing meets a fault

Sizes that do not fit together, and indices that are out of range, end a calculation with a
fault. None of the operations offered to a user can bring that about, as long as the functions
that the user supplies keep to the sizes they are given.

For a minimiser this is about one call, since a minimiser does not change by being used
(`Stepwise.Descent.Minimiser.Safe`). An initial value problem does change. It is posed piece by
piece, coefficients may be offered that make no scheme, and every integration leaves other
samples behind, whether it succeeds or not (`Stepwise.Ode.Posed`). But the shape of the
coefficients is part of what a scheme is, and the samples are looked at anew before each
integration, so all that has to survive these operations is that the right-hand side keeps the
dimension of the state. Then a problem is safe however it was posed
(`Stepwise.Ode.Problem.Safe`).
-/

namespace Stepwise

variable {R : Type} [Scalar R]

/-! ### Minimisers -/

namespace Descent

/-- With vectors of length `n` a minimiser meets no fault, and the points it returns are such
vectors. -/
structure Minimiser.Safe (n : Nat) (m : Minimiser R) : Prop where
  /-- A minimisation reports what it fails with. -/
  run : ∀ {σ : Type} (observer : Observer (Visit R) σ) (memory : σ) (x₀ : Vec R), x₀.length = n →
    ∀ fault, (m.run observer memory x₀).outcome ≠ .error (.fault fault)
  /-- What it finds has the length of the starting point. -/
  length_run : ∀ {σ : Type} (observer : Observer (Visit R) σ) (memory : σ) (x₀ : Vec R),
    x₀.length = n → ∀ sol, (m.run observer memory x₀).outcome = .ok sol → sol.point.length = n
  /-- A line search reports what it fails with. -/
  search : ∀ x p : Vec R, x.length = n → p.length = n →
    ∀ fault, m.search x p ≠ .error (.fault fault)
  /-- It lands on a point that has the length of the starting point. -/
  length_search : ∀ x p : Vec R, x.length = n → p.length = n →
    ∀ landing, m.search x p = .ok landing → landing.point.length = n

/-- **A minimiser is safe if its objective fits.** -/
theorem Minimiser.safe_of_fits {n : Nat} {m : Minimiser R}
    (hm : ∀ f, m.objective? = some f → f.Fits n) : m.Safe n where
  run observer memory _ hx₀ := (faultless_iff.mp (faultless_run hm observer memory hx₀)).1
  length_run observer memory _ hx₀ := (faultless_iff.mp (faultless_run hm observer memory hx₀)).2
  search _ _ hx hp := (faultless_iff.mp (faultless_search hm hx hp)).1
  length_search _ _ hx hp := (faultless_iff.mp (faultless_search hm hx hp)).2

end Descent

/-! ### Initial value problems -/

namespace Ode

/-- A problem that some operations have led to, the right-hand sides among them keeping the
dimension of the state. -/
inductive Posed : Problem R → Prop
  /-- Nothing is set. -/
  | new : Posed .new
  /-- A right-hand side is set. -/
  | field {p : Problem R} (h : Posed p) {f : Field R} (hf : Keeps f) : Posed (p.withField f)
  /-- A scheme is set. -/
  | scheme {p : Problem R} (h : Posed p) (scheme : Scheme R) : Posed (p.withScheme scheme)
  /-- Coefficients of a multistep scheme are offered; if they make none, nothing changes. -/
  | multistep {p : Problem R} (h : Posed p) (alpha beta : List R) :
      Posed ((p.withMultistep alpha beta).toOption.getD p)
  /-- Coefficients of a Runge–Kutta scheme are offered; if they make none, nothing changes. -/
  | tableau {p : Problem R} (h : Posed p) (a : Mat R) (b c : Vec R) :
      Posed ((p.withTableau a b c).toOption.getD p)
  /-- Samples are set, whatever they are. -/
  | trajectory {p : Problem R} (h : Posed p) (samples : Trajectory R) :
      Posed (p.withTrajectory samples)
  /-- The minimiser for implicit steps is set up. -/
  | minimiser {p : Problem R} (h : Posed p) (m : Descent.Minimiser R) : Posed (p.withMinimiser m)
  /-- The problem is integrated, with whatever outcome. -/
  | integrate {p : Problem R} (h : Posed p) {σ : Type} {observer : Observer (Arrival R) σ}
      {memory : σ} {finish k : R} {budget : Nat} {report : Report R σ}
      (hreport : p.integrate observer memory finish k budget = some report) :
      Posed (p.after report)

/-- No operation but setting it touches the right-hand side. -/
theorem Posed.keeps {p : Problem R} (h : Posed p) {f : Field R} (hf : p.field? = some f) :
    Keeps f := by
  induction h with
  | new => exact nomatch hf
  | field _ hkeeps _ =>
    cases hf
    exact hkeeps
  | scheme _ _ ih => exact ih hf
  | @multistep p _ alpha beta ih =>
    refine ih ?_
    rw [← hf, Problem.withMultistep]
    cases (Multistep.make alpha beta).mapError Error.scheme <;> rfl
  | @tableau p _ a b c ih =>
    refine ih ?_
    rw [← hf, Problem.withTableau]
    cases (Tableau.make a b c).mapError Error.scheme <;> rfl
  | trajectory _ _ ih => exact ih hf
  | minimiser _ _ ih => exact ih hf
  | integrate _ _ ih => exact ih hf

/-- No integration of the problem meets a fault, and no index of its steps is out of range. -/
structure Problem.Safe (p : Problem R) : Prop where
  /-- An integration that ends reports what it fails with. -/
  integrate : ∀ {σ : Type} (observer : Observer (Arrival R) σ) (memory : σ) (finish k : R)
    (budget : Nat) (report : Report R σ),
    p.integrate observer memory finish k budget = some report →
      ∀ fault, report.outcome ≠ .error (.fault fault)
  /-- Runge–Kutta steps may be made index by index. -/
  indices : ∀ f s, p.field? = some f → p.scheme? = some (.rungeKutta s) →
    ∀ (last : Sample R) (k : R), Tableau.Indexed.step s f last k p.minimiser =
      s.step f last k p.minimiser

/-- **A problem is safe if its right-hand side keeps the dimension**, whatever was done to the
problem before. -/
theorem Problem.safe_of_keeps {p : Problem R} (hp : ∀ f, p.field? = some f → Keeps f) :
    p.Safe where
  integrate _ _ _ _ _ _ hreport :=
    (faultless_iff.mp ((integrate_eq_some.mp hreport).faultless hp)).1
  indices f s hf _ last k := Tableau.Indexed.step_eq s (hp f hf) last k p.minimiser

end Ode

/-! ### Both -/

/-- **Nothing meets a fault.** A problem is safe if its right-hand side has a value everywhere
that is as long as the state, and so it is if all right-hand sides have that were set in the
course of the operations that led to it. A minimiser is safe with vectors of length `n`, whatever
its settings, if its objective has a value on all of them and the derivatives that are supplied
have the sizes they should have. -/
theorem no_fault :
    (∀ p : Ode.Problem R, (∀ f, p.field? = some f → Ode.Keeps f) → p.Safe) ∧
      (∀ p : Ode.Problem R, Ode.Posed p → p.Safe) ∧
      ∀ (n : Nat) (m : Descent.Minimiser R), (∀ f, m.objective? = some f → f.Fits n) → m.Safe n :=
  ⟨fun _ => Ode.Problem.safe_of_keeps,
    fun _ h => Ode.Problem.safe_of_keeps fun _ hf => h.keeps hf,
    fun _ _ => Descent.Minimiser.safe_of_fits⟩

/-- The square of the length fits every dimension. -/
theorem Descent.square_fits (n : Nat) : (Descent.square : Objective R).Fits n where
  value x hx := by
    obtain ⟨v, hv, -⟩ := total_iff.mp (Vec.total_dot hx hx)
    exact ⟨v, hv⟩
  gradient g hg x hx := by
    cases hg
    exact ⟨_, rfl, (x.length_scale _).trans hx⟩
  hessian _ h := nomatch h

/-- The decay over doubles is safe, it stays safe when it has been integrated and coefficients have
been offered that make no scheme, and so is the square of the length in two dimensions. -/
theorem no_fault_decay_square :
    (Ode.decay : Ode.Problem Float).Safe ∧
      (∃ report, (Ode.decay : Ode.Problem Float).integrate
          (.keeping 8 Ode.Arrival.step (some 2)) #[] 1 0.25 8 = some report ∧
        (((Ode.decay.after report).withMultistep [] []).toOption.getD
          (Ode.decay.after report)).Safe) ∧
      ((Descent.Minimiser.new : Descent.Minimiser Float).withObjective Descent.square).Safe 2 := by
  have hsome : ((Ode.decay : Ode.Problem Float).integrate
      (.keeping 8 Ode.Arrival.step (some 2)) #[] 1 0.25 8).isSome = true := by
    decide +kernel
  obtain ⟨report, hreport⟩ := Option.isSome_iff_exists.mp hsome
  have hdecay : Ode.Posed (Ode.decay : Ode.Problem Float) :=
    ((Ode.Posed.new.field Ode.decay_keeps).scheme _).trajectory _
  refine ⟨no_fault.1 _ fun f hf => ?_,
    ⟨report, hreport, no_fault.2.1 _ ((hdecay.integrate hreport).multistep [] [])⟩,
    no_fault.2.2 2 _ fun f hf => ?_⟩
  · cases hf
    exact Ode.decay_keeps
  · cases hf
    exact Descent.square_fits 2

end Stepwise
