import Stepwise.Proofs.Ode.Spacing
import Stepwise.Proofs.Sizes

/-!
# Explicit steps

A step can fail because two vectors have different lengths, or because a minimisation does. An
explicit step minimises nothing, and its vectors fit together if the recorded states have one
dimension and the right-hand side keeps it. So it always gives a next state
(`Stepwise.Ode.exists_step_of_isExplicit`), of the same dimension again.

An integration by explicit steps can then only end by reaching its time, and whether it does
is a question about the times alone: they do not depend on the states
(`Stepwise.Ode.exists_integrate_iff`).
-/

namespace Stepwise.Ode

variable {R : Type} [Scalar R]

/-- The right-hand side has a value everywhere, of the dimension of the state. -/
def Keeps (f : Field R) : Prop := ∀ u t, ∃ v, f u t = .ok v ∧ v.length = u.length

/-- All recorded states have one dimension. -/
def Uniform (dimension : Nat) (h : Trajectory R) : Prop :=
  ∀ sample ∈ h.samples.toList, sample.state.length = dimension

omit [Scalar R] in
/-- A slope of the right-hand side has the dimension of the state. -/
theorem Keeps.total {f : Field R} (hf : Keeps f) {n : Nat} {u : Vec R} (hu : u.length = n) (t : R) :
    Total (·.length = n) (f u t) :=
  hu ▸ total_iff.mpr (hf u t)

/-- The decay keeps the dimension of the state. -/
theorem decay_keeps : Keeps (fun (u : Vec R) _ => .ok u.neg) :=
  fun u _ => ⟨_, rfl, u.length_neg⟩

/-! ### Multistep schemes -/

/-- The samples contribute what they should, if their states fit. -/
theorem total_known (s : Multistep R) {f : Field R} (hf : Keeps f) (k : R) {n : Nat}
    {recent : List (Sample R)} (hrecent : ∀ sample ∈ recent, sample.state.length = n) :
    Total (·.length = n) (s.known f k n recent) := by
  have hstates : Total (·.length = n) (Multistep.addStates (Vec.zero n) s.alpha.tail recent) :=
    Sound.foldlM (fun p hp _ hsum =>
      Vec.total_add_scale hsum (hrecent p.2 (List.of_mem_zip hp).2) p.1) (Vec.length_zero n)
  refine hstates.bind fun states hstates => Sound.foldlM (fun (b, sample) hp sum hsum => ?_) hstates
  have hslope := hf.total (hrecent sample (List.of_mem_zip hp).2) sample.time
  exact hslope.bind fun slope hlength => Vec.total_add_scale hsum hlength (k * b)

/-! ### Runge–Kutta schemes -/

/-- To add stages that fit. -/
theorem total_addStages (k : R) {n : Nat} {sum : Vec R} (hsum : sum.length = n)
    (coefficients : List R) {stages : List (Vec R)} (hstages : ∀ stage ∈ stages, stage.length = n) :
    Total (·.length = n) (Tableau.addStages k sum coefficients stages) :=
  Sound.foldlM (fun p hp _ hsum =>
    Vec.total_add_scale hsum (hstages p.2 (List.of_mem_zip hp).2) (k * p.1)) hsum

/-- The stages can be computed one after the other, and each has the dimension of the state. -/
theorem total_computeStages (s : Tableau R) {f : Field R} (hf : Keeps f) (last : Sample R)
    (k : R) : Total (fun stages => ∀ stage ∈ stages, stage.length = last.state.length)
      (s.computeStages f last k) := by
  refine Sound.foldlM (fun (row, node) _ stages hstages => ?_) (fun _ h => nomatch h)
  refine (total_addStages k rfl row hstages).bind fun point hpoint => ?_
  refine (hf.total hpoint (last.time + node * k)).bind fun stage hstage v hv => ?_
  rcases List.mem_append.mp hv with hv | hv
  · exact hstages v hv
  · rw [List.mem_singleton.mp hv, hstage]

theorem total_explicitNext (s : Tableau R) {f : Field R} (hf : Keeps f) (last : Sample R)
    (k : R) : Total (·.length = last.state.length) (s.explicitNext f last k) :=
  (total_computeStages s hf last k).bind fun _ hstages => total_addStages k rfl s.b hstages

/-! ### Steps -/

section Steps

variable {f : Field R} {scheme : Scheme R} {h : Trajectory R} {last : Sample R} {n : Nat}

omit [Scalar R] in
/-- The newest samples are samples. -/
theorem mem_of_mem_recent {sample : Sample R} (hmem : sample ∈ h.recent n) :
    sample ∈ h.samples.toList := by
  rw [Trajectory.recent, List.mem_reverse, Array.toList_extract, List.extract_eq_take_drop] at hmem
  exact List.mem_of_mem_drop (List.mem_of_mem_take hmem)

/-- Samples that can be continued have states of one dimension. -/
theorem uniform_of_requireSpacing {k : R} (hspacing : h.requireSpacing k = .ok ())
    (hlast : h.last? = some last) : Uniform last.state.length h := by
  obtain ⟨-, first, rest, hlist, hdimension, -⟩ := requireSpacing_eq_ok_iff.mp hspacing
  have hall : ∀ sample ∈ h.samples.toList, sample.state.length = first.state.length := by
    rw [hlist]
    exact List.forall_mem_cons.mpr ⟨rfl, hdimension⟩
  rw [Trajectory.last?_eq_getLast?] at hlast
  rw [Uniform, hall last (List.mem_of_getLast? hlast)]
  exact hall

omit [Scalar R] in
theorem Uniform.push (hh : Uniform n h) {sample : Sample R} (hsample : sample.state.length = n) :
    Uniform n (h.push sample) := by
  intro other hother
  rw [Trajectory.toList_push] at hother
  rcases List.mem_append.mp hother with hother | hother
  · exact hh other hother
  · rw [List.mem_singleton.mp hother, hsample]

/-- **An explicit step gives a next state**, of the dimension of the last one. -/
theorem exists_step_of_isExplicit (hexplicit : scheme.isExplicit = true) (hf : Keeps f)
    (hh : Uniform n h) (hlast : h.last? = some last) (k : R) (m : Descent.Minimiser R) :
    ∃ state, (scheme.step f h last k m).outcome = .ok state ∧ state.length = n := by
  have hdimension : last.state.length = n := by
    rw [Trajectory.last?_eq_getLast?] at hlast
    exact hh last (List.mem_of_getLast? hlast)
  have hnext : ∃ state, (scheme.step f h last k m).outcome = .ok state := by
    cases scheme with
    | multistep s =>
      have hrecent : ∀ sample ∈ h.recent s.depth, sample.state.length = last.state.length :=
        fun sample hsample => (hh sample (mem_of_mem_recent hsample)).trans hdimension.symm
      obtain ⟨known, hknown, -⟩ := total_iff.mp (total_known s hf k hrecent)
      have hscheme : s.isExplicit = true := hexplicit
      refine ⟨known, ?_⟩
      simp only [Scheme.step, Multistep.step, hknown, hscheme, if_true]
      rfl
    | rungeKutta s =>
      obtain ⟨state, hstate, -⟩ := total_iff.mp (total_explicitNext s hf last k)
      have hscheme : s.isExplicit = true := hexplicit
      refine ⟨state, ?_⟩
      simp only [Scheme.step, Tableau.step, hscheme, if_true, Step.explicit, hstate]
      rfl
  obtain ⟨state, hstate⟩ := hnext
  exact ⟨state, hstate, (length_of_step hstate).trans hdimension⟩

end Steps

/-! ### Integrations -/

/-- The time after some steps from `time` on the way to `finish`. -/
def clock (finish k time : R) (n : Nat) : R := (nextTime finish k)^[n] time

theorem clock_succ (finish k time : R) (n : Nat) :
    clock finish k time (n + 1) = nextTime finish k (clock finish k time n) :=
  Function.iterate_succ_apply' ..

section Run

variable {σ : Type} {p : Problem R} {f : Field R} {scheme : Scheme R}
  {observer : Observer (Arrival R) σ} {memory : σ} {finish k : R} {last : Sample R}
  {dimension n : Nat}

/-- The integration from `time` on is at its step number `n`, with states of one dimension. -/
structure Ticking (finish k time : R) (dimension n : Nat) (q : Progress R σ) : Prop where
  /-- The states have one dimension. -/
  uniform : Uniform dimension q.trajectory
  /-- The last sample has the time that belongs to the step. -/
  last : ∃ here, q.trajectory.last? = some here ∧ here.time = clock finish k time n

/-- **One explicit step**: unless the time is reached, the integration goes on. -/
theorem Ticking.next (hexplicit : scheme.isExplicit = true) (hf : Keeps f)
    (hsilent : observer.Silent) {time : R} {q : Progress R σ}
    (h : Ticking finish k time dimension n q)
    (hend : ¬finish - clock finish k time n ≤ endTolerance k) (m : Descent.Minimiser R) :
    ∃ q', q.next f scheme m observer finish k n = .again q' ∧
      Ticking finish k time dimension (n + 1) q' := by
  obtain ⟨here, hhere, htime⟩ := h.last
  rw [← htime] at hend
  obtain ⟨state, hstate, hlength⟩ := exists_step_of_isExplicit hexplicit hf h.uniform hhere k m
  refine ⟨_, passage_iff.mp (.onward hhere hend hstate rfl (hsilent q.observer _)), ?_⟩
  refine ⟨h.uniform.push hlength, _, Trajectory.last?_push, ?_⟩
  rw [clock_succ, ← htime]

/-- **All explicit steps**: as long as the time is not reached, the integration goes on. -/
theorem exists_reaches (hready : p.ready k = .ok (f, scheme))
    (hexplicit : scheme.isExplicit = true) (hf : Keeps f) (hsilent : observer.Silent)
    (hlast : p.trajectory.last? = some last) (memory : σ)
    (hend : ∀ i < n, ¬finish - clock finish k last.time i ≤ endTolerance k) :
    ∃ q, Reaches p f scheme observer memory finish k n q ∧
      Ticking finish k last.time last.state.length n q := by
  induction n with
  | zero =>
    exact ⟨_, Reaches.zero.mpr rfl,
      uniform_of_requireSpacing (requireSpacing_of_ready hready) hlast, last, hlast, rfl⟩
  | succ n ih =>
    obtain ⟨q, hreach, hticking⟩ := ih fun i hi => hend i (by omega)
    obtain ⟨q', hnext, hticking'⟩ :=
      hticking.next hexplicit hf hsilent (hend n n.lt_succ_self) p.minimiser
    exact ⟨q', Reaches.succ.mpr ⟨q, hreach, hnext⟩, hticking'⟩

/-- **An integration by explicit steps ends if and only if some number of steps reaches its
time.** -/
theorem exists_integrate_iff (hready : p.ready k = .ok (f, scheme))
    (hexplicit : scheme.isExplicit = true) (hf : Keeps f) (hsilent : observer.Silent)
    (hlast : p.trajectory.last? = some last) :
    (∃ budget report, p.integrate observer memory finish k budget = some report) ↔
      ∃ n, finish - clock finish k last.time n ≤ endTolerance k := by
  constructor
  · rintro ⟨budget, report, hreport⟩
    by_contra! hend
    cases integrate_eq_some.mp hreport with
    | refused hrefused => exact nomatch hready.symm.trans hrefused
    | @last f' scheme' n q _ hready' hn hreach hdone =>
      obtain ⟨rfl, rfl⟩ := Prod.mk.inj (Except.ok.inj (hready.symm.trans hready'))
      -- The round that ended the integration goes on.
      obtain ⟨q', hreach', hticking⟩ := exists_reaches (n := n) hready hexplicit hf hsilent hlast
        memory fun i _ => hend i
      obtain rfl : q = q' := Round.again.inj (hreach.symm.trans hreach')
      obtain ⟨_, hnext, -⟩ := hticking.next hexplicit hf hsilent (hend n) p.minimiser
      exact nomatch hdone.symm.trans hnext
  · intro hex
    classical
    obtain ⟨q, hreach, hticking⟩ := exists_reaches (n := Nat.find hex) hready hexplicit hf hsilent
      hlast memory fun i hi => Nat.find_min hex hi
    obtain ⟨here, hhere, htime⟩ := hticking.last
    have hend : finish - here.time ≤ endTolerance k := by
      rw [htime]
      exact Nat.find_spec hex
    have hpassage : Passage f scheme p.minimiser observer finish k (Nat.find hex) q _ :=
      .reached hhere hend
    exact ⟨_, _, integrate_eq_some.mpr
      (.last hready (Nat.lt_succ_self _) hreach (passage_iff.mp hpassage))⟩

end Run

end Stepwise.Ode
