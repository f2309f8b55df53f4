import Mathlib.Algebra.Module.BigOperators
import Stepwise.Proofs.Ode.Grid
import Stepwise.Proofs.Ode.Lookback

/-!
# Solutions that are straight lines

A scheme is consistent if it makes no error where the solution is a straight line. For a multistep
scheme that is a condition on its coefficients: the states have to add up to a state, and the steps
that they lie back have to be made up for by the slopes. For a Runge–Kutta scheme the weights have
to add up to one, and every node has to be the sum of its row, so that a stage is taken where the
line is.

An explicit step of a consistent scheme goes along the line (`Stepwise.Ode.OnLine.step`), and it
leaves samples that are on the line at equal distances, from the newest back. That is all that the
next step looks at, so all steps go along the line (`Stepwise.Ode.OnLine.exists_steps`). The one
exception is in the times: a sample that is moved has the state of the time that the step led to.
-/

namespace Stepwise.Ode

open Matrix

variable {d : ℕ}

/-! ### Lines -/

section Lines

variable (u₀ v : Fin d → ℝ)

/-- The point of a straight line at a time. -/
def line (t : ℝ) : Fin d → ℝ := u₀ + t • v

theorem line_add (t a : ℝ) : line u₀ v (t + a) = line u₀ v t + a • v := by
  rw [line, line, add_smul, add_assoc]

theorem line_sub (t a : ℝ) : line u₀ v (t - a) = line u₀ v t - a • v := by
  rw [line, line, sub_smul, add_sub_assoc]

/-- The coefficients times points of a line at equal distances. -/
theorem weighted_line (coefficients : List ℝ) (t k : ℝ) :
    weighted coefficients (fun i => line u₀ v (t - i * k)) =
      (∑ i ∈ Finset.Ico 1 coefficients.length, coefficients.getD i 0) • line u₀ v t -
        (k * ∑ i ∈ Finset.Ico 1 coefficients.length, (i : ℝ) * coefficients.getD i 0) • v := by
  simp only [weighted, line_sub, smul_sub, smul_smul, Finset.sum_sub_distrib, ← Finset.sum_smul,
    Finset.mul_sum]
  congr 2
  exact Finset.sum_congr rfl fun i _ => by ring

theorem weighted_const (coefficients : List ℝ) :
    weighted coefficients (fun _ => v) =
      (∑ i ∈ Finset.Ico 1 coefficients.length, coefficients.getD i 0) • v := by
  rw [weighted, ← Finset.sum_smul]

end Lines

/-! ### Consistent schemes -/

/-- An explicit multistep scheme that makes no error on straight lines. -/
structure Multistep.Consistent (s : Multistep ℝ) : Prop where
  /-- The slope at the next state does not take part. -/
  leading_eq : s.leading = 0
  /-- The states add up to a state. -/
  sum_alpha : ∑ i ∈ Finset.Ico 1 s.alpha.length, s.alpha.getD i 0 = 1
  /-- The slopes make up for the steps that the states lie back. -/
  sum_mul_alpha : ∑ i ∈ Finset.Ico 1 s.alpha.length, (i : ℝ) * s.alpha.getD i 0 =
    ∑ i ∈ Finset.Ico 1 s.beta.length, s.beta.getD i 0

/-- An explicit Runge–Kutta scheme that makes no error on straight lines. -/
structure Tableau.Consistent (s : Tableau ℝ) : Prop where
  /-- The stages are computed one after the other. -/
  explicit : s.isExplicit = true
  /-- The weights add up to one. -/
  sum_weights : ∑ i : Fin s.stages, s.b.getD i 0 = 1
  /-- Every node is the sum of its row. -/
  node_eq : ∀ i : Fin s.stages, s.c.getD i 0 = ∑ j : Fin s.stages, s.a.entry i j

/-- An explicit scheme that makes no error on straight lines. -/
def Scheme.Consistent : Scheme ℝ → Prop
  | .multistep s => s.Consistent
  | .rungeKutta s => s.Consistent

/-- **The explicit preset multistep schemes are consistent.** -/
theorem Multistep.ofPreset_consistent {preset : Preset}
    (hpreset : (ofPreset preset : Multistep ℝ).isExplicit = true) :
    (ofPreset preset : Multistep ℝ).Consistent := by
  cases preset with
  | forwardEuler =>
    constructor <;> norm_num [ofPreset, leading, Finset.sum_Ico_eq_sum_range]
  | backwardEuler =>
    norm_num [ofPreset, isExplicit, leading, Scalar.singleGap] at hpreset
  | trapezoidal =>
    norm_num [ofPreset, isExplicit, leading, Scalar.singleGap] at hpreset
  | midpoint =>
    constructor <;> norm_num [ofPreset, leading, Finset.sum_Ico_eq_sum_range, Finset.sum_range_succ]

/-- **The preset Runge–Kutta schemes are consistent.** -/
theorem Tableau.ofPreset_consistent (preset : Preset) :
    (ofPreset preset : Tableau ℝ).Consistent := by
  cases preset with
  | heunThirdOrder =>
    refine ⟨by simp [isExplicit, ofPreset, zeroFrom], ?_, fun i => ?_⟩
    · change ∑ i : Fin 3, _ = _
      norm_num [Fin.sum_univ_three, ofPreset]
    · change _ = ∑ j : Fin 3, _
      change Fin 3 at i
      fin_cases i <;> norm_num [Fin.sum_univ_three, ofPreset, Mat.entry]
  | classicalFourthOrder =>
    refine ⟨by simp [isExplicit, ofPreset, zeroFrom], ?_, fun i => ?_⟩
    · change ∑ i : Fin 4, _ = _
      norm_num [Fin.sum_univ_four, ofPreset]
    · change _ = ∑ j : Fin 4, _
      change Fin 4 at i
      fin_cases i <;> norm_num [Fin.sum_univ_four, ofPreset, Mat.entry]

/-- A scheme starts from some sample. -/
theorem Scheme.depth_pos : ∀ scheme : Scheme ℝ, 0 < scheme.depth
  | .multistep s => s.depth_pos
  | .rungeKutta _ => one_pos

/-! ### One step along a line -/

section Step

variable {u₀ v : Fin d → ℝ} {f : Field ℝ} {k t : ℝ}

/-- What the samples on a line contribute is the next point of the line. -/
theorem Multistep.Consistent.sum_eq {s : Multistep ℝ} (hs : s.Consistent) (t k : ℝ) :
    weighted s.alpha (fun i => line u₀ v (t - i * k)) + k • weighted s.beta (fun _ => v) =
      line u₀ v t := by
  rw [weighted_line, weighted_const, hs.sum_alpha, hs.sum_mul_alpha, one_smul, smul_smul,
    sub_add_cancel]

theorem Multistep.Consistent.isExplicit {s : Multistep ℝ} (hs : s.Consistent) :
    s.isExplicit = true := by
  norm_num [Multistep.isExplicit, hs.leading_eq, Scalar.singleGap]

/-- The stages of a step along a line are its slope, and lead to the next point of the line. -/
theorem Tableau.Consistent.explicitNext_eq {s : Tableau ℝ} (hs : s.Consistent)
    (hf : ∀ t, f (List.ofFn (line u₀ v t)) t = .ok (List.ofFn v)) (t k : ℝ) :
    s.explicitNext f ⟨List.ofFn (line u₀ v t), t⟩ k = .ok (List.ofFn (line u₀ v (t + k))) := by
  have hconst (n : ℕ) : (List.range n).map (fun _ => v) = List.ofFn fun _ : Fin n => v := by
    simp [List.ofFn_const]
  have hpoint : ∀ i < s.stages, combination (s.a.rows.getD i []) ((List.range i).map fun _ => v) =
      s.c.getD i 0 • v := by
    intro i hi
    have hrow := combination_row (s := s) (fun _ => v) ⟨i, hi⟩
    rw [combination_take (zeroFrom_of_isExplicit hs.explicit ⟨i, hi⟩), ← hconst, ← List.map_take,
      List.take_range, min_eq_left hi.le] at hrow
    rw [hrow, ← Finset.sum_smul, ← hs.node_eq ⟨i, hi⟩]
  have hstages : s.computeStages f ⟨List.ofFn (line u₀ v t), t⟩ k = _ :=
    computeStages_map (K := fun _ => v) fun i hi => by
      rw [hpoint i hi, smul_smul, mul_comm k, ← line_add, hf]
  rw [Tableau.explicitNext, hstages, ok_bind, addStages_ofFn, hconst,
    combination_ofFn (show s.b.length = s.stages from rfl), ← Finset.sum_smul, hs.sum_weights,
    one_smul, line_add]

/-- The samples are on the line, at equal distances back from a time. -/
def OnLine (u₀ v : Fin d → ℝ) (k t : ℝ) (h : Trajectory ℝ) : Prop :=
  Listed h (fun i => line u₀ v (t + k - i * k)) fun i => t + k - i * k

variable {scheme : Scheme ℝ} {h : Trajectory ℝ}

theorem OnLine.last (hline : OnLine u₀ v k t h) (hh : 0 < h.size) :
    h.last? = some ⟨List.ofFn (line u₀ v t), t⟩ := by
  simpa using Listed.last hline hh

/-- **A step of a consistent scheme goes along the line.** -/
theorem OnLine.step (hscheme : scheme.Consistent)
    (hf : ∀ t, f (List.ofFn (line u₀ v t)) t = .ok (List.ofFn v)) (hline : OnLine u₀ v k t h)
    (hdepth : scheme.depth ≤ h.size) (m : Descent.Minimiser ℝ) :
    (scheme.step f h ⟨List.ofFn (line u₀ v t), t⟩ k m).outcome =
      .ok (List.ofFn (line u₀ v (t + k))) := by
  cases scheme with
  | multistep s =>
    have hs : s.Consistent := hscheme
    have hknown := known_eq s k hline hdepth fun i => hf (t + k - i * k)
    rw [hs.sum_eq] at hknown
    simp only [Scheme.step, Multistep.step, List.length_ofFn, hknown, hs.isExplicit]
    rfl
  | rungeKutta s =>
    have hs : s.Consistent := hscheme
    simp only [Scheme.step, Tableau.step, hs.explicit, if_true, Step.explicit,
      hs.explicitNext_eq hf]
    rfl

/-- The next point of the line is one more sample on it. -/
theorem OnLine.push (hline : OnLine u₀ v k t h) :
    OnLine u₀ v k (t + k) (h.push ⟨List.ofFn (line u₀ v (t + k)), t + k⟩) := by
  intro i hi hle
  have hsize : (h.push ⟨List.ofFn (line u₀ v (t + k)), t + k⟩).size = h.size + 1 :=
    Array.size_push ..
  rw [hsize] at hle ⊢
  rcases Nat.lt_or_eq_of_le (Nat.succ_le_of_lt hi) with hlt | rfl
  · -- What was sample `i - 1` from the newest back is sample `i` now.
    have hold := hline (i - 1) (by omega) (by omega)
    have hplace : t + k - ((i - 1 : ℕ) : ℝ) * k = t + k + k - i * k := by
      rw [Nat.cast_pred hi]
      ring
    simp only [hplace, show h.size - (i - 1) = h.size + 1 - i by omega] at hold
    rw [← hold, Trajectory.push, Array.getElem?_push, if_neg]
    change h.size + 1 - i ≠ h.size
    omega
  · simp [Trajectory.push, Trajectory.size]

end Step

/-! ### All steps along a line -/

section Steps

variable {u₀ v : Fin d → ℝ} {f : Field ℝ} {k t finish : ℝ} {scheme : Scheme ℝ}
  {m : Descent.Minimiser ℝ} {h : Trajectory ℝ} {n : ℕ}

/-- New sample number `i` of `n`: the time may be moved, the state is that of the grid. -/
noncomputable def linePoint (u₀ v : Fin d → ℝ) (finish k t : ℝ) (n i : ℕ) : Sample ℝ :=
  ⟨List.ofFn (line u₀ v (t + i * k)), arrivalTime finish k t n i⟩

theorem getElem?_linePoint {i : ℕ} {sample : Sample ℝ} :
    ((List.range' 1 n).map (linePoint u₀ v finish k t n))[i]? = some sample ↔
      i < n ∧ linePoint u₀ v finish k t n (i + 1) = sample := by
  by_cases hi : i < n <;> simp [hi, Nat.add_comm 1 i]

/-- **All steps of a consistent scheme go along the line.** As long as they are not all made, what
they have recorded is on the line as well. -/
theorem OnLine.exists_steps (hscheme : scheme.Consistent)
    (hf : ∀ t, f (List.ofFn (line u₀ v t)) t = .ok (List.ofFn v)) (hline : OnLine u₀ v k t h)
    (hdepth : scheme.depth ≤ h.size) (hn : IsStepCount finish k t n) {i : ℕ} (hi : i ≤ n) :
    ∃ h', Steps f scheme m finish k i h h' ∧
      h'.samples.toList = h.samples.toList ++ (List.range' 1 i).map (linePoint u₀ v finish k t n) ∧
      (∃ here, h'.last? = some here ∧ here.time = timeAfter finish k t n i) ∧
      (i < n → OnLine u₀ v k (t + i * k) h') := by
  have hpos : 0 < h.size := scheme.depth_pos.trans_le hdepth
  induction i with
  | zero =>
    refine ⟨h, .refl h, by simp, ⟨_, hline.last hpos, rfl⟩, fun _ => by simpa using hline⟩
  | succ i ih =>
    obtain ⟨h', hsteps, hsamples, -, hon⟩ := ih (by omega)
    have hline' := hon hi
    have hsize := hsteps.size_eq
    have hlast := hline'.last (by omega)
    have hstep := hline'.step hscheme hf (by omega) m
    have hend : ¬finish - (t + i * k) ≤ endTolerance k := by
      rw [endTolerance_real]
      exact not_le.mpr (hn.not_reached hi)
    have hplace : t + i * k + k = t + ((i + 1 : ℕ) : ℝ) * k := by
      push_cast
      ring
    have hnext := Steps.step hsteps hlast hend hstep
    rw [nextTime_grid hn hi, hplace] at hnext
    refine ⟨_, hnext, ?_, ⟨_, Trajectory.last?_push, (timeAfter_succ i).symm⟩, fun hlt => ?_⟩
    · rw [Trajectory.toList_push, hsamples, List.range'_1_concat, List.map_append, Nat.add_comm 1 i,
        List.append_assoc]
      rfl
    · rw [arrivalTime_of_lt hlt, ← hplace]
      exact hline'.push

/-- Samples that are a step apart lie back from the last one by as many steps as there are samples
between. -/
theorem exists_time_of_isChain
    (hgap : h.samples.toList.IsChain fun before after => after.time - before.time = k)
    {last : Sample ℝ} (hlast : h.last? = some last) {i : ℕ} (hi : 1 ≤ i) (hle : i ≤ h.size) :
    ∃ sample, h.samples[h.size - i]? = some sample ∧ sample.time = last.time + k - i * k := by
  induction i, hi using Nat.le_induction with
  | base =>
    rw [Trajectory.last?, Array.back?_eq_getElem?] at hlast
    exact ⟨last, hlast, by simp⟩
  | succ i hi ih =>
    obtain ⟨after, hafter, htime⟩ := ih (by omega)
    have hlt : h.size - (i + 1) < h.samples.size := by
      change h.size - (i + 1) < h.size
      omega
    refine ⟨_, Array.getElem?_eq_getElem hlt, ?_⟩
    obtain ⟨hlt', rfl⟩ := Array.getElem?_eq_some_iff.mp hafter
    have hstep := List.isChain_iff_getElem.mp hgap (h.size - (i + 1)) (by simp; omega)
    simp only [Array.getElem_toList, show h.size - (i + 1) + 1 = h.size - i by omega] at hstep
    push_cast
    linarith

/-- Samples on the line that are a step apart are at equal distances back from the last one. -/
theorem onLine_of_isChain
    (hstate : ∀ sample ∈ h.samples.toList, sample.state = List.ofFn (line u₀ v sample.time))
    (hgap : h.samples.toList.IsChain fun before after => after.time - before.time = k)
    {last : Sample ℝ} (hlast : h.last? = some last) : OnLine u₀ v k last.time h := by
  intro i hi hle
  obtain ⟨sample, hsample, htime⟩ := exists_time_of_isChain hgap hlast hi hle
  have hmem : sample ∈ h.samples.toList := Array.mem_toList_iff.mpr (Array.mem_of_getElem? hsample)
  refine hsample.trans (congrArg some ?_)
  change sample = ⟨List.ofFn (line u₀ v (last.time + k - i * k)), last.time + k - i * k⟩
  rw [← htime, ← hstate sample hmem]

end Steps

/-! ### Integrations along a line -/

/-- A new sample is where the step from the one before it leads along a line. -/
inductive Along (u₀ v : Fin d → ℝ) (finish k : ℝ) (before : Sample ℝ) (final : Prop) :
    Sample ℝ → Prop
  /-- It is on the line. -/
  | onLine : Along u₀ v finish k before final
      ⟨List.ofFn (line u₀ v (before.time + k)), before.time + k⟩
  /-- It is the last one and is moved, and its state is that of the time that the step led to. -/
  | moved (hfinal : final) (hclose : |finish - (before.time + k)| ≤ 1e-6 * k) :
      Along u₀ v finish k before final ⟨List.ofFn (line u₀ v (before.time + k)), finish⟩

section Integration

variable {u₀ v : Fin d → ℝ} {f : Field ℝ} {k : ℝ} {scheme : Scheme ℝ} {p : Problem ℝ}

/-- **A consistent scheme reproduces straight lines.** In exact arithmetic, if the right-hand side
has the slope of a line on the line, and the samples are on the line and exactly a step apart, then
for every time an explicit integration by a consistent scheme completes, after as many steps as it
takes, and every new sample is on the line, save that one that is moved to the time keeps the state
of the time it is moved from. -/
theorem integrate_line (hready : p.ready k = .ok (f, scheme)) (hscheme : scheme.Consistent)
    (hf : ∀ t, f (List.ofFn (line u₀ v t)) t = .ok (List.ofFn v))
    (hstate : ∀ sample ∈ p.trajectory.samples.toList,
      sample.state = List.ofFn (line u₀ v sample.time))
    (hgap : p.trajectory.samples.toList.IsChain fun before after => after.time - before.time = k)
    (finish : ℝ) :
    ∃ budget n time h last added, Completes p finish k budget n time h ∧
      p.trajectory.last? = some last ∧ IsStepCount finish k last.time n ∧
      h.samples.toList = p.trajectory.samples.toList ++ added ∧ added.length = n ∧
      ∀ i before sample, (last :: added)[i]? = some before → added[i]? = some sample →
        Along u₀ v finish k before (i + 1 = n) sample := by
  obtain ⟨last, hlast⟩ := exists_last_of_ready hready
  have hk : 0 < k := by simpa using pos_of_requireSpacing (requireSpacing_of_ready hready)
  have hdepth := requireDepth_eq_ok_iff.mp (ready_eq_ok_iff.mp hready).2.2.2
  have hline := onLine_of_isChain hstate hgap hlast
  obtain ⟨n, hn⟩ : ∃ n, IsStepCount finish k last.time n := exists_isStepCount hk
  obtain ⟨h, hsteps, hsamples, ⟨here, hhere, htime⟩, -⟩ :=
    hline.exists_steps (m := p.minimiser) hscheme hf hdepth hn le_rfl
  have hend : finish - here.time ≤ endTolerance k := by
    rw [htime, timeAfter_reached_iff hk hn le_rfl]
  refine ⟨n + 1, n, here.time, h, last, _,
    (completes_iff hready).mpr ⟨n.lt_succ_self, hsteps, here, hhere, rfl, hend⟩, hlast, hn,
    hsamples, by simp, fun i before sample hbefore hsample => ?_⟩
  obtain ⟨hi, rfl⟩ := getElem?_linePoint.mp hsample
  have htime : before.time = last.time + i * k := by
    cases i with
    | zero =>
      cases hbefore
      simp
    | succ i =>
      obtain ⟨-, rfl⟩ := getElem?_linePoint.mp (List.getElem?_cons_succ ▸ hbefore)
      exact arrivalTime_of_lt hi
  have hplace : last.time + ((i + 1 : ℕ) : ℝ) * k = before.time + k := by
    rw [htime]
    push_cast
    ring
  rw [linePoint, arrivalTime]
  split_ifs with hmoved
  · obtain ⟨rfl, hclose⟩ := hmoved
    rw [hplace] at hclose ⊢
    exact .moved rfl hclose
  · rw [hplace]
    exact .onLine

/-- The right-hand side of `u' = u - t + 1`, which has slope one where `u = t`. -/
noncomputable def drift : Field ℝ := fun u t => .ok (u.map fun a => a - t + 1)

/-- The samples of the line are continued on it up to time three, in two steps. -/
theorem integrate_line_drift :
    ∃ budget time h, Completes (ramp drift) 3 1 budget 2 time h ∧
      h.samples.toList = [⟨[0], 0⟩, ⟨[1], 1⟩, ⟨[2], 2⟩, ⟨[3], 3⟩] := by
  have hconsistent : (Scheme.multistep (Multistep.ofPreset .midpoint) : Scheme ℝ).Consistent :=
    Multistep.ofPreset_consistent midpoint_isExplicit
  have hslope (t : ℝ) : drift (List.ofFn (line (0 : Fin 1 → ℝ) 1 t)) t =
      .ok (List.ofFn (1 : Fin 1 → ℝ)) := by
    simp [drift, line]
  have hcount : IsStepCount 3 1 1 2 := by
    convert isStepCount_add one_pos 1 2
    norm_num
  obtain ⟨budget, n, time, h, last, added, hcompletes, hlast, hn, hsamples, hadded, halong⟩ :=
    integrate_line (ramp_ready drift) hconsistent hslope (by simp [ramp, line])
      (by norm_num [ramp]) 3
  obtain rfl : (⟨[1], 1⟩ : Sample ℝ) = last := Option.some.inj hlast
  obtain rfl : n = 2 := hn.unique hcount
  obtain ⟨first, second, rfl⟩ := List.length_eq_two.mp hadded
  -- Only the last sample may be moved, and it is at time three already.
  have hfirst : first = ⟨[2], 2⟩ := by
    rcases halong 0 _ _ rfl rfl with _ | ⟨hfinal, -⟩
    · norm_num [line]
    · exact absurd hfinal (by decide)
  have hsecond : second = ⟨[3], 3⟩ := by
    subst hfirst
    rcases halong 1 _ _ rfl rfl with _ | _
    · norm_num [line]
    · norm_num [line]
  refine ⟨budget, time, h, hcompletes, ?_⟩
  rw [hsamples, hfirst, hsecond]
  rfl

end Integration

end Stepwise.Ode
