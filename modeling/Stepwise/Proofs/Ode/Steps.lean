import Mathlib.Tactic.SplitIfs
import Stepwise.Ode.Scheme
import Stepwise.Proofs.Descent.Account

/-!
# What a step gives

An explicit step adds multiples of states and slopes to a vector as long as the last
state, and an implicit one reads the next state out of a point that a minimiser has found
(`Stepwise.Ode.implicit_eq_ok`). Either way the next state is as long as the last one
(`Stepwise.Ode.length_of_step`), whatever the right-hand side returns: a slope of another
length is a fault.
-/

namespace Stepwise.Ode

variable {R : Type} [Scalar R]

/-! ### Implicit steps -/

/-- **An implicit step that succeeds has found a point** at which the minimisation of the
residual, begun at the given start and observed by nobody, could end. -/
theorem implicit_eq_ok {m : Descent.Minimiser R} {residual : Vec R → Except Fault R}
    {start : Vec R} {read : Vec R → Vec R} {state : Vec R}
    (h : (Step.implicit m residual start read).outcome = .ok state) :
    m.settings.check = .ok () ∧ ∃ sol events, state = read sol.point ∧
      Descent.Found (({ value := residual } : Objective R).complete m.settings.step) m.settings
        start .silent () events sol := by
  obtain ⟨sol, hsol, hread⟩ := map_eq_ok.mp h
  have hcheck := Descent.check_of_run hsol
  exact ⟨hcheck, sol, _, hread.symm, Descent.found_of_run hcheck rfl hsol⟩

/-- An implicit step goes where the minimisation of its residual goes. -/
theorem implicit_of_descend {m : Descent.Minimiser R} {residual : Vec R → Except Fault R}
    {start : Vec R} {read : Vec R → Vec R} {sol : Descent.Solution R}
    (hcheck : m.settings.check = .ok ())
    (hdescend : (Descent.descend (({ value := residual } : Objective R).complete m.settings.step)
      m.settings .silent () start).outcome = .ok sol) :
    (Step.implicit m residual start read).outcome = .ok (read sol.point) := by
  simp only [Step.implicit, Descent.Minimiser.run, Descent.Minimiser.oracle,
    Descent.Minimiser.withObjective, hcheck, hdescend]
  rfl

/-- **An implicit step stays where it starts** if the residual is as good as stationary there. -/
theorem implicit_stationary {m : Descent.Minimiser R} {residual : Vec R → Except Fault R}
    {start gradient : Vec R} {read : Vec R → Vec R} {value : R}
    (hcheck : m.settings.check = .ok ()) (hvalue : residual start = .ok value)
    (hgradient : centralGradient residual m.settings.step start = .ok gradient)
    (hnorm : gradient.norm ≤ m.settings.epsilon) :
    (Step.implicit m residual start read).outcome = .ok (read start) := by
  have hcomplete : (({ value := residual } : Objective R).complete m.settings.step).gradient start =
      .ok gradient := hgradient
  have hdescend := Descent.descend_stationary .silent () (Descent.check_eq_ok_iff.mp hcheck).1
    hcomplete hvalue hnorm
  exact implicit_of_descend hcheck hdescend

/-! ### Lengths -/

omit [Scalar R] in
/-- What keeps the length of a vector, keeps it when it is repeated. -/
theorem length_of_foldlM {α : Type} {g : Vec R → α → Except Fault (Vec R)}
    (hg : ∀ sum a next, g sum a = .ok next → next.length = sum.length) {l : List α}
    {sum total : Vec R} (h : l.foldlM g sum = .ok total) : total.length = sum.length := by
  induction l generalizing sum with
  | nil =>
    cases h
    rfl
  | cons a l ih =>
    rw [List.foldlM_cons] at h
    obtain ⟨next, hnext, h⟩ := bind_eq_ok.mp h
    rw [ih h, hg sum a next hnext]

/-- The explicit side of a multistep scheme has the dimension it is asked for. -/
theorem length_of_known {s : Multistep R} {f : Field R} {k : R} {n : Nat}
    {recent : List (Sample R)} {known : Vec R} (h : s.known f k n recent = .ok known) :
    known.length = n := by
  obtain ⟨states, hstates, h⟩ := bind_eq_ok.mp h
  have hslopes : known.length = states.length := by
    refine length_of_foldlM (fun sum pair next hnext => ?_) h
    obtain ⟨slope, -, hnext⟩ := bind_eq_ok.mp hnext
    exact Vec.length_of_combine hnext
  have hsum : states.length = (Vec.zero n : Vec R).length :=
    length_of_foldlM (fun sum pair next hnext => Vec.length_of_combine hnext) hstates
  rw [hslopes, hsum, Vec.zero, List.length_replicate]

/-- To add stages keeps the length. -/
theorem length_of_addStages {k : R} {sum total : Vec R} {coefficients : List R}
    {stages : List (Vec R)} (h : Tableau.addStages k sum coefficients stages = .ok total) :
    total.length = sum.length :=
  length_of_foldlM (fun _ _ _ hnext => Vec.length_of_combine hnext) h

/-- **The next state is as long as the last one.** -/
theorem length_of_step {f : Field R} {h : Trajectory R} {last : Sample R} {k : R}
    {m : Descent.Minimiser R} {scheme : Scheme R} {state : Vec R}
    (hstep : (scheme.step f h last k m).outcome = .ok state) :
    state.length = last.state.length := by
  cases scheme with
  | multistep s =>
    simp only [Scheme.step, Multistep.step] at hstep
    split at hstep
    · exact nomatch hstep
    · rename_i known hknown
      split_ifs at hstep with hexplicit
      · cases hstep
        exact length_of_known hknown
      · obtain ⟨-, sol, events, rfl, hfound⟩ := implicit_eq_ok hstep
        exact hfound.length_point
  | rungeKutta s =>
    simp only [Scheme.step, Tableau.step] at hstep
    split_ifs at hstep with hexplicit
    · obtain ⟨stages, -, hnext⟩ := bind_eq_ok.mp (Failure.ofFault_eq_ok.mp hstep)
      exact length_of_addStages hnext
    · obtain ⟨-, sol, events, rfl, hfound⟩ := implicit_eq_ok hstep
      -- The point is as long as the stacked start, and the state is its last block.
      have hlength := hfound.length_point
      rw [Tableau.stackedStart, List.length_append, Vec.zero, List.length_replicate] at hlength
      rw [Tableau.block, List.length_take, List.length_drop, hlength]
      omega

end Stepwise.Ode
