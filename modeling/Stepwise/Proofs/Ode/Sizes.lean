import Stepwise.Proofs.Ode.Explicit
import Stepwise.Proofs.Descent.Sizes

/-!
# Integrations among states of one dimension

A right-hand side that keeps the dimension of the state makes every step fit: what a scheme adds
up has the dimension of the last state, and so have the stages. The residual of an implicit step
has a value wherever the minimiser can ask for it, which is at vectors as long as the start: one
state for a multistep scheme, and a block for every stage and one for the next state for a
Runge–Kutta scheme. So the minimisation behind the step meets no fault, and neither does the step
(`Stepwise.Ode.faultless_step`).

An integration asks for states of one dimension before it starts. Every step adds one more, and
nothing else has to be known of the samples to go on
(`Stepwise.Ode.Reaches.uniform`, `Stepwise.Ode.Journey.faultless`).
-/

namespace Stepwise.Ode

variable {R σ : Type} [Scalar R] {n : Nat} {f : Field R} (hf : Keeps f)

/-! ### Residuals -/

include hf in
/-- The equation of a multistep scheme can be checked at any state that fits. -/
theorem defined_multistepResidual {known u : Vec R} (hknown : known.length = n)
    (hu : u.length = n) (implicit next : R) :
    Defined (Multistep.residual f known implicit next u) := by
  refine (Vec.total_combine _ hu hknown).bind fun rest hrest => ?_
  refine (hf.total hu next).bind fun slope hslope => ?_
  exact (Vec.total_sub_scale hrest hslope implicit).bind fun _ _ => trivial

omit [Scalar R] in
/-- A block that the vector has is as long as it should be. -/
theorem length_block {m i : Nat} {u : Vec R} (h : (i + 1) * m ≤ u.length) :
    (Tableau.block m i u).length = m := by
  rw [Nat.add_mul, Nat.one_mul] at h
  rw [Tableau.block, List.length_take, List.length_drop]
  omega

omit [Scalar R] in
/-- The stages in a stacked vector are as long as a state. -/
theorem length_of_mem_blocks {m stages : Nat} {u : Vec R} (hu : u.length = (stages + 1) * m) :
    ∀ stage ∈ (List.range stages).map fun i => Tableau.block m i u, stage.length = m := by
  intro stage hstage
  obtain ⟨i, hi, rfl⟩ := List.mem_map.mp hstage
  have hle : i + 1 ≤ stages + 1 := by
    have := List.mem_range.mp hi
    omega
  exact length_block (hu ▸ Nat.mul_le_mul_right m hle)

include hf in
theorem defined_stageResidual {last : Sample R} (hlast : last.state.length = n) (k : R)
    {stages : List (Vec R)} (hstages : ∀ stage ∈ stages, stage.length = n) (row : Vec R) (node : R)
    {stage : Vec R} (hstage : stage.length = n) :
    Defined (Tableau.stageResidual f last k stages row node stage) := by
  refine (total_addStages k hlast row hstages).bind fun point hpoint => ?_
  refine (hf.total hpoint _).bind fun slope hslope => ?_
  exact (Vec.total_combine _ hslope hstage).bind fun _ _ => trivial

theorem defined_nextResidual (s : Tableau R) {last : Sample R} (hlast : last.state.length = n)
    (k : R) {stages : List (Vec R)} (hstages : ∀ stage ∈ stages, stage.length = n)
    {next : Vec R} (hnext : next.length = n) : Defined (s.nextResidual last k stages next) := by
  refine (Vec.total_combine _ hnext hlast).bind fun change hchange => ?_
  refine Sound.bind (P := fun rest => rest.length = n) ?_ fun _ _ => trivial
  exact Sound.foldlM (fun p hp _ hrest =>
    Vec.total_sub_scale hrest (hstages p.2 (List.of_mem_zip hp).2) (k * p.1)) hchange

include hf in
/-- The equations of a Runge–Kutta scheme can be checked at any vector that has a block for every
stage and one for the next state. -/
theorem defined_residual (s : Tableau R) (last : Sample R) (k : R) {u : Vec R}
    (hu : u.length = (s.stages + 1) * last.state.length) : Defined (s.residual f last k u) := by
  have hstages := length_of_mem_blocks hu
  refine (defined_nextResidual s rfl k hstages (length_block hu.ge)).bind fun first _ => ?_
  refine Sound.foldlM (P := fun _ => True) (fun ((row, node), stage) hp sum _ => ?_) trivial
  have hstage := hstages stage (List.of_mem_zip hp).2
  exact (defined_stageResidual hf rfl k hstages row node hstage).bind fun _ _ => trivial

/-- The stacked start has a block for every stage and one for the next state. -/
theorem length_stackedStart (s : Tableau R) (last : Sample R) :
    (s.stackedStart last).length = (s.stages + 1) * last.state.length := by
  rw [Tableau.stackedStart, List.length_append, Vec.length_zero, Nat.add_mul, Nat.one_mul]

/-! ### Steps -/

omit [Scalar R] in
/-- A residual by itself, as an objective that fits. -/
theorem fits_residual {residual : Vec R → Except Fault R}
    (h : ∀ u, u.length = n → Defined (residual u)) :
    ({ value := residual } : Objective R).Fits n where
  value u hu := by
    obtain ⟨v, hv, -⟩ := total_iff.mp (h u hu)
    exact ⟨v, hv⟩
  gradient _ h := nomatch h
  hessian _ h := nomatch h

/-- A residual that has a value on vectors of one length is minimised among them without a
fault. -/
theorem faultless_minimise {residual : Vec R → Except Fault R}
    (h : ∀ u, u.length = n → Defined (residual u)) (m : Descent.Minimiser R) {start : Vec R}
    (hstart : start.length = n) :
    Faultless (·.point.length = n)
      ((m.withObjective { value := residual }).run Observer.silent () start).outcome := by
  refine Descent.Minimiser.faultless_run (fun objective hobjective => ?_) _ _ hstart
  cases hobjective
  exact fits_residual h

/-- **An implicit step meets no fault** if its residual has a value on vectors as long as its
start. -/
theorem faultless_implicit {residual : Vec R → Except Fault R} {start : Vec R}
    (h : ∀ u, u.length = start.length → Defined (residual u)) (m : Descent.Minimiser R)
    (read : Vec R → Vec R) :
    Faultless (fun _ => True) (Step.implicit m residual start read).outcome :=
  (faultless_minimise h m rfl).map fun _ _ => trivial

section Steps

variable {scheme : Scheme R} {h : Trajectory R} {last : Sample R}

include hf in
/-- **A step meets no fault**, and its state has the dimension of the last one. -/
theorem faultless_step (hh : Uniform n h) (hlast : h.last? = some last) (k : R)
    (m : Descent.Minimiser R) :
    Faultless (·.length = n) (scheme.step f h last k m).outcome := by
  have hdimension : last.state.length = n := by
    rw [Trajectory.last?_eq_getLast?] at hlast
    exact hh last (List.mem_of_getLast? hlast)
  have hstep : Faultless (fun _ => True) (scheme.step f h last k m).outcome := by
    cases scheme with
    | multistep s =>
      have hrecent : ∀ sample ∈ h.recent s.depth, sample.state.length = last.state.length :=
        fun sample hsample => (hh sample (mem_of_mem_recent hsample)).trans hdimension.symm
      obtain ⟨known, hknown, hlength⟩ := total_iff.mp (total_known s hf k hrecent)
      simp only [Scheme.step, Multistep.step, hknown]
      split_ifs
      · trivial
      · exact faultless_implicit (fun u hu => defined_multistepResidual hf hlength hu _ _) m id
    | rungeKutta s =>
      simp only [Scheme.step, Tableau.step]
      split_ifs
      · exact (total_explicitNext s hf last k).lift.imp fun _ _ => trivial
      · refine faultless_implicit (fun u hu => defined_residual hf s last k ?_) m _
        rw [hu, length_stackedStart]
  obtain ⟨hfault, -⟩ := faultless_iff.mp hstep
  exact faultless_iff.mpr ⟨hfault, fun _ hstate => (length_of_step hstate).trans hdimension⟩

end Steps

/-! ### Integrations -/

section Run

variable {p : Problem R} {scheme : Scheme R} {observer : Observer (Arrival R) σ} {memory : σ}
  {finish k : R}

/-- **The samples of an integration have states of one dimension**, however many there are. -/
theorem Reaches.uniform (hready : p.ready k = .ok (f, scheme)) {last : Sample R}
    (hlast : p.trajectory.last? = some last) {i : Nat} {q : Progress R σ}
    (h : Reaches p f scheme observer memory finish k i q) :
    Uniform last.state.length q.trajectory := by
  induction i generalizing q with
  | zero =>
    cases Reaches.zero.mp h
    exact uniform_of_requireSpacing (requireSpacing_of_ready hready) hlast
  | succ i ih =>
    obtain ⟨before, hbefore, hnext⟩ := Reaches.succ.mp h
    have hh := ih hbefore
    cases passage_iff.mpr hnext with
    | onward hhere hend hstep hsample hverdict =>
      subst hsample
      refine hh.push ((length_of_step hstep).trans ?_)
      rw [Trajectory.last?_eq_getLast?] at hhere
      exact hh _ (List.mem_of_getLast? hhere)

/-- **An integration meets no fault** if the right-hand side keeps the dimension. -/
theorem Journey.faultless (hp : ∀ f, p.field? = some f → Keeps f) {budget : Nat}
    {report : Report R σ} (h : Journey p observer memory finish k budget report) :
    Faultless (fun _ => True) report.outcome := by
  cases h with
  | refused hready => trivial
  | @last f scheme n q _ hready hn hreach hend =>
    have hf : Keeps f := hp f (ready_eq_ok_iff.mp hready).1
    obtain ⟨last, hlast⟩ := exists_last_of_ready hready
    cases passage_iff.mpr hend with
    | empty hempty => trivial
    | reached hhere hend => trivial
    | stopped hhere hend hstep hsample hverdict => trivial
    | @failure here e hhere hend hstep =>
      have hfaultless : Faultless (·.length = last.state.length)
          (scheme.step f q.trajectory here k p.minimiser).outcome :=
        faultless_step hf (hreach.uniform hready hlast) hhere k p.minimiser
      rw [hstep] at hfaultless
      cases e with
      | fault fault => exact hfaultless.elim
      | error cause => trivial

end Run

end Stepwise.Ode
