import Mathlib.Algebra.BigOperators.Intervals
import Stepwise.Proofs.Ode.Residual
import Stepwise.Proofs.Ode.Resumption
import Stepwise.Proofs.Ode.Sizes
import Stepwise.Proofs.Ode.Stages

/-!
# Which sample a coefficient belongs to

A multistep scheme counts its samples from the newest back. Its coefficients come in two lists,
which need not be equally long, and each is paired with the newest samples until one of the two
ends. A sample that is missing would go unnoticed: its coefficient would be left out. But as many
samples as the longer list asks for are there before an integration starts, and there are never
fewer of them later. So every coefficient meets the sample that it refers to, in every step
(`Stepwise.Ode.step_uses_all`).

In exact arithmetic what the samples contribute is then a sum over the coefficients
(`Stepwise.Ode.known_eq`). An explicit step is that sum. An implicit step minimises the square of
what is left of its equation, which vanishes just where the equation holds.
-/

namespace Stepwise.Ode

open Matrix

variable {d : ℕ}

/-! ### Samples from the newest back -/

/-- The samples are `u 1` at `t 1`, `u 2` at `t 2` and so on, from the newest back. -/
def Listed (h : Trajectory ℝ) (u : ℕ → Fin d → ℝ) (t : ℕ → ℝ) : Prop :=
  ∀ i, 0 < i → i ≤ h.size → h.samples[h.size - i]? = some ⟨List.ofFn (u i), t i⟩

section Samples

variable {h : Trajectory ℝ} {u : ℕ → Fin d → ℝ} {t : ℕ → ℝ} {n : ℕ}

/-- States of one dimension can be listed. -/
theorem exists_listed (hh : Uniform d h) : ∃ (u : ℕ → Fin d → ℝ) (t : ℕ → ℝ), Listed h u t := by
  have hall (i : ℕ) : ∃ (v : Fin d → ℝ) (time : ℝ), 0 < i → i ≤ h.size →
      h.samples[h.size - i]? = some ⟨List.ofFn v, time⟩ := by
    by_cases hi : 0 < i ∧ i ≤ h.size
    · have hlt : h.size - i < h.samples.size := by
        change h.size - i < h.size
        omega
      have hsample := Array.getElem?_eq_getElem hlt
      obtain ⟨v, hv⟩ := Vec.exists_eq_ofFn (hh _ (Array.getElem_mem_toList hlt))
      refine ⟨v, h.samples[h.size - i].time, fun _ _ => ?_⟩
      rw [hsample, ← hv]
    · exact ⟨0, 0, fun hpos hle => absurd ⟨hpos, hle⟩ hi⟩
  choose u t hlisted using hall
  exact ⟨u, t, hlisted⟩

/-- The first sample of the list is the last one recorded. -/
theorem Listed.last (hlisted : Listed h u t) (hh : 0 < h.size) :
    h.last? = some ⟨List.ofFn (u 1), t 1⟩ := by
  rw [Trajectory.last?, Array.back?_eq_getElem?]
  exact hlisted 1 one_pos hh

/-- The newest samples are the first of the list. -/
theorem Listed.recent_eq (hlisted : Listed h u t) (hn : n ≤ h.size) :
    h.recent n = (List.range' 1 n).map fun i => ⟨List.ofFn (u i), t i⟩ := by
  have hsize : h.samples.size = h.size := rfl
  refine List.ext_getElem (by simp [Trajectory.recent, hsize]; omega) fun i hi hi' => ?_
  have hin : i < n := by simpa using hi'
  have hplace := hlisted (1 + i) (by omega) (by omega)
  obtain ⟨hlt, hsample⟩ := Array.getElem?_eq_some_iff.mp hplace
  simp only [Trajectory.recent, List.getElem_reverse, Array.getElem_toList, Array.getElem_extract,
    List.getElem_map, List.getElem_range', Nat.one_mul, Array.length_toList, Array.size_extract]
  rw [← hsample]
  congr 1
  omega

end Samples

/-! ### Sums over the coefficients -/

section Sums

variable {n : ℕ}

/-- The coefficients but the first one times what they refer to. -/
noncomputable def weighted (coefficients : List ℝ) (K : ℕ → Fin d → ℝ) : Fin d → ℝ :=
  ∑ i ∈ Finset.Ico 1 coefficients.length, coefficients.getD i 0 • K i

/-- Coefficients that are all paired make a sum over all of them. -/
theorem combination_range' {coefficients : List ℝ} (h : coefficients.length ≤ n) (first : ℕ)
    (K : ℕ → Fin d → ℝ) : combination coefficients ((List.range' first n).map K) =
      ∑ j ∈ Finset.range coefficients.length, coefficients.getD j 0 • K (first + j) := by
  induction coefficients generalizing n first with
  | nil => rfl
  | cons a coefficients ih =>
    obtain ⟨n, rfl⟩ : ∃ m, n = m + 1 := Nat.exists_eq_succ_of_ne_zero (by simp at h; omega)
    rw [List.range'_succ, List.map_cons, combination_cons,
      ih (Nat.le_of_succ_le_succ h) (first + 1), List.length_cons, Finset.sum_range_succ']
    simp [add_comm, add_left_comm]

/-- With enough samples every coefficient but the first is paired with its own. -/
theorem combination_tail {coefficients : List ℝ} (h : coefficients.length - 1 ≤ n)
    (K : ℕ → Fin d → ℝ) :
    combination coefficients.tail ((List.range' 1 n).map K) = weighted coefficients K := by
  have htail (j : ℕ) : coefficients.tail.getD j 0 = coefficients.getD (1 + j) 0 := by
    simp [List.getD_eq_getElem?_getD, Nat.add_comm 1 j]
  rw [combination_range' (by rwa [List.length_tail]), weighted, Finset.sum_Ico_eq_sum_range,
    List.length_tail]
  exact Finset.sum_congr rfl fun j _ => by rw [htail]

end Sums

/-! ### What the samples contribute -/

section Known

variable {f : Field ℝ} {h : Trajectory ℝ} {u w : ℕ → Fin d → ℝ} {t : ℕ → ℝ}

theorem addStates_ofFn (v : Fin d → ℝ) (alpha : List ℝ) (places : List ℕ) :
    Multistep.addStates (List.ofFn v) alpha (places.map fun i => ⟨List.ofFn (u i), t i⟩) =
      .ok (List.ofFn (v + combination alpha (places.map u))) := by
  have hsum := foldlM_zip_ofFn (K := u) (k := 1) (l := places)
    (e := fun i => (⟨List.ofFn (u i), t i⟩ : Sample ℝ))
    (g := fun (sum : Vec ℝ) ((a, sample) : ℝ × Sample ℝ) => sum.add (sample.state.scale a))
    (fun v a i _ => by simp) v alpha
  rwa [one_smul] at hsum

theorem addSlopes_ofFn (k : ℝ) (v : Fin d → ℝ) (beta : List ℝ) {places : List ℕ}
    (hf : ∀ i ∈ places, f (List.ofFn (u i)) (t i) = .ok (List.ofFn (w i))) :
    Multistep.addSlopes f k (List.ofFn v) beta (places.map fun i => ⟨List.ofFn (u i), t i⟩) =
      .ok (List.ofFn (v + k • combination beta (places.map w))) :=
  foldlM_zip_ofFn (fun v b i hi => by simp [hf i hi]) v beta

/-- **What the samples contribute is the sum over all coefficients**, if there are as many samples
as the coefficients refer to. -/
theorem known_eq (s : Multistep ℝ) (k : ℝ) (hlisted : Listed h u t) (hdepth : s.depth ≤ h.size)
    (hf : ∀ i, f (List.ofFn (u i)) (t i) = .ok (List.ofFn (w i))) :
    s.known f k d (h.recent s.depth) =
      .ok (List.ofFn (weighted s.alpha u + k • weighted s.beta w)) := by
  have halpha : s.alpha.length - 1 ≤ s.depth := by
    rw [Multistep.depth]
    omega
  have hbeta : s.beta.length - 1 ≤ s.depth := by
    rw [Multistep.depth]
    omega
  rw [Multistep.known, hlisted.recent_eq hdepth, Vec.zero_real, addStates_ofFn, ok_bind,
    addSlopes_ofFn k _ _ fun i _ => hf i, combination_tail halpha, combination_tail hbeta, zero_add]

end Known

/-! ### Steps -/

/-- The step from the last sample uses every coefficient with the sample that it refers to, where
the samples from the newest back are `u 1` at `t 1`, `u 2` at `t 2` and so on. -/
structure UsesAll (s : Multistep ℝ) (f : Field ℝ) (slope : (Fin d → ℝ) → ℝ → Fin d → ℝ)
    (h : Trajectory ℝ) (k : ℝ) (m : Descent.Minimiser ℝ) (u : ℕ → Fin d → ℝ) (t : ℕ → ℝ) :
    Prop where
  /-- Every coefficient but the first of each list refers to a sample. -/
  refers : ∀ i, 0 < i → i < s.alpha.length ∨ i < s.beta.length →
    i ≤ h.size ∧ h.samples[h.size - i]? = some ⟨List.ofFn (u i), t i⟩
  /-- The newest sample is the last one recorded. -/
  last : h.last? = some ⟨List.ofFn (u 1), t 1⟩
  /-- An explicit step is the sum of what they contribute. -/
  explicit : s.isExplicit = true → (s.step f h ⟨List.ofFn (u 1), t 1⟩ k m).outcome =
    .ok (List.ofFn (weighted s.alpha u + k • weighted s.beta fun i => slope (u i) (t i)))
  /-- An implicit step minimises, from the last state on, what vanishes if and only if the sum and
  the slope at the next state make the next state. -/
  implicit : s.isExplicit = false → ∃ residual : Vec ℝ → Except Fault ℝ,
    s.step f h ⟨List.ofFn (u 1), t 1⟩ k m = .implicit m residual (List.ofFn (u 1)) id ∧
    ∀ v : Fin d → ℝ, ∃ r, residual (List.ofFn v) = .ok r ∧ 0 ≤ r ∧
      (r = 0 ↔ v = weighted s.alpha u + k • weighted s.beta (fun i => slope (u i) (t i)) +
        (k * s.leading) • slope v (t 1 + k))

section Steps

variable {f : Field ℝ} {slope : (Fin d → ℝ) → ℝ → Fin d → ℝ}
  (hf : ∀ u t, f (List.ofFn u) t = .ok (List.ofFn (slope u t))) {s : Multistep ℝ}
  {h : Trajectory ℝ} {k : ℝ}

include hf in
/-- **A step uses every coefficient** if there are as many samples as the coefficients refer to. -/
theorem Listed.usesAll {u : ℕ → Fin d → ℝ} {t : ℕ → ℝ} (hlisted : Listed h u t)
    (hdepth : s.depth ≤ h.size) (m : Descent.Minimiser ℝ) : UsesAll s f slope h k m u t := by
  have hpos : 0 < h.size := s.depth_pos.trans_le hdepth
  have hknown := known_eq s k hlisted hdepth fun i => hf (u i) (t i)
  refine ⟨fun i hi hlt => ?_, hlisted.last hpos, fun hexplicit => ?_, fun himplicit => ?_⟩
  · have hle : i ≤ h.size := by
      rw [Multistep.depth] at hdepth
      omega
    exact ⟨hle, hlisted i hi hle⟩
  · simp only [Multistep.step, List.length_ofFn, hknown, hexplicit]
    rfl
  · refine ⟨_, ?_, fun v => exists_residual _ (k * s.leading) (fun u => hf u (t 1 + k)) v⟩
    simp only [Multistep.step, List.length_ofFn, hknown, himplicit]
    rfl

/-- As many samples as a scheme asks for are there as long as an integration goes on. -/
theorem Reaches.depth_le {σ : Type} {p : Problem ℝ} {scheme : Scheme ℝ}
    {observer : Observer (Arrival ℝ) σ} {memory : σ} {finish : ℝ} {n : ℕ} {q : Progress ℝ σ}
    (hready : p.ready k = .ok (f, scheme))
    (hreach : Reaches p f scheme observer memory finish k n q) :
    scheme.depth ≤ q.trajectory.size := by
  have hdepth := requireDepth_eq_ok_iff.mp (ready_eq_ok_iff.mp hready).2.2.2
  rw [hreach.steps.size_eq]
  omega

end Steps

/-- **A multistep step uses every coefficient with its own sample**, if the states have one
dimension and there are as many samples as the coefficients refer to; and so it is in all steps of
an integration, however many there are. -/
theorem step_uses_all {f : Field ℝ} {slope : (Fin d → ℝ) → ℝ → Fin d → ℝ}
    (hf : ∀ u t, f (List.ofFn u) t = .ok (List.ofFn (slope u t))) (s : Multistep ℝ) (k : ℝ) :
    (∀ (h : Trajectory ℝ) (m : Descent.Minimiser ℝ), Uniform d h → s.depth ≤ h.size →
      ∃ u t, UsesAll s f slope h k m u t) ∧
    ∀ {σ : Type} {p : Problem ℝ} {observer : Observer (Arrival ℝ) σ} {memory : σ} {finish : ℝ}
      {n : ℕ} {q : Progress ℝ σ}, p.ready k = .ok (f, .multistep s) → Uniform d p.trajectory →
      Reaches p f (.multistep s) observer memory finish k n q →
      ∃ u t, UsesAll s f slope q.trajectory k p.minimiser u t := by
  have hstep (h : Trajectory ℝ) (m : Descent.Minimiser ℝ) (hh : Uniform d h)
      (hdepth : s.depth ≤ h.size) : ∃ u t, UsesAll s f slope h k m u t := by
    obtain ⟨u, t, hlisted⟩ := exists_listed hh
    exact ⟨u, t, hlisted.usesAll hf hdepth m⟩
  refine ⟨hstep, fun {σ p observer memory finish n q} hready hh hreach => ?_⟩
  obtain ⟨last, hlast⟩ := exists_last_of_ready hready
  have hdimension : last.state.length = d := by
    rw [Trajectory.last?_eq_getLast?] at hlast
    exact hh last (List.mem_of_getLast? hlast)
  exact hstep _ _ (hdimension ▸ hreach.uniform hready hlast) (hreach.depth_le hready)

/-- Two samples of the line `u = t`, a unit apart, to be continued by the midpoint scheme. -/
noncomputable def ramp (f : Field ℝ) : Problem ℝ where
  field? := some f
  scheme? := some (.multistep (Multistep.ofPreset .midpoint))
  trajectory := ⟨#[⟨[0], 0⟩, ⟨[1], 1⟩]⟩
  minimiser := .new

theorem ramp_ready (f : Field ℝ) :
    (ramp f).ready 1 = .ok (f, .multistep (Multistep.ofPreset .midpoint)) := by
  refine ready_eq_ok_iff.mpr ⟨rfl, rfl, ?_, requireDepth_eq_ok_iff.mpr le_rfl⟩
  have hmatch : Matches 1 (⟨[0], 0⟩ : Sample ℝ) ⟨[1], 1⟩ := matches_of_gap_eq (sub_zero _)
  exact requireSpacing_eq_ok_iff.mpr ⟨by norm_num, _, _, rfl, by simp, List.isChain_pair.mpr hmatch⟩

theorem midpoint_isExplicit : (Multistep.ofPreset .midpoint : Multistep ℝ).isExplicit = true := by
  norm_num [Multistep.isExplicit, Multistep.leading, Multistep.ofPreset, Scalar.singleGap]

/-- The right-hand side of `u' = u`. -/
def growth : Field ℝ := fun u _ => .ok u

/-- The implicit scheme that takes two states and the slope at the next one. -/
noncomputable def backwardTwo : Multistep ℝ :=
  ⟨[0, Scalar.ratio 4 3, -Scalar.ratio 1 3], [Scalar.ratio 2 3], List.cons_ne_nil _ _,
    Nat.zero_lt_two⟩

theorem backwardTwo_isExplicit : backwardTwo.isExplicit = false := by
  norm_num [Multistep.isExplicit, Multistep.leading, backwardTwo, Scalar.singleGap]

theorem uniform_ramp (f : Field ℝ) : Uniform 1 (ramp f).trajectory := by
  simp [Uniform, ramp]

/-- The samples that the coefficients refer to are those of the line. -/
theorem UsesAll.samples_ramp {s : Multistep ℝ} {f : Field ℝ}
    {slope : (Fin 1 → ℝ) → ℝ → Fin 1 → ℝ} {k : ℝ} {m : Descent.Minimiser ℝ}
    {u : ℕ → Fin 1 → ℝ} {t : ℕ → ℝ}
    (huses : UsesAll s f slope (ramp f).trajectory k m u t) (hlong : 2 < s.alpha.length) :
    u 1 = ![1] ∧ t 1 = 1 ∧ u 2 = ![0] := by
  have hnewer : (⟨List.ofFn (u 1), t 1⟩ : Sample ℝ) = ⟨List.ofFn ![1], 1⟩ :=
    Option.some.inj (huses.refers 1 one_pos (.inl (by omega))).2.symm
  have holder : (⟨List.ofFn (u 2), t 2⟩ : Sample ℝ) = ⟨List.ofFn ![0], 0⟩ :=
    Option.some.inj (huses.refers 2 two_pos (.inl hlong)).2.symm
  exact ⟨List.ofFn_injective (congrArg Sample.state hnewer), congrArg Sample.time hnewer,
    List.ofFn_injective (congrArg Sample.state holder)⟩

/-- The next state of the growth comes from the older state and the slope at the newer one, and
the step after it uses all its coefficients again. An implicit step that takes both states and the
slope at the next one looks for the zero `4` of `v = 4 / 3 + 2 / 3 v`. -/
theorem step_uses_all_growth :
    ((Multistep.ofPreset .midpoint).step growth (ramp growth).trajectory ⟨[1], 1⟩ 1
      (ramp growth).minimiser).outcome = .ok [2] ∧
    (∃ q : Progress ℝ Unit,
      Reaches (ramp growth) growth (.multistep (Multistep.ofPreset .midpoint)) .silent () 3 1 1 q ∧
      ∃ u t, UsesAll (d := 1) (Multistep.ofPreset .midpoint) growth (fun u _ => u) q.trajectory 1
        (ramp growth).minimiser u t) ∧
    ∃ residual, backwardTwo.step growth (ramp growth).trajectory ⟨[1], 1⟩ 1
        (ramp growth).minimiser = .implicit (ramp growth).minimiser residual [1] id ∧
      ∀ a : ℝ, ∃ r, residual [a] = .ok r ∧ 0 ≤ r ∧ (r = 0 ↔ a = 4) := by
  have hf (u : Fin 1 → ℝ) (t : ℝ) : growth (List.ofFn u) t = .ok (List.ofFn u) := rfl
  have hnext : ((Multistep.ofPreset .midpoint).step growth (ramp growth).trajectory ⟨[1], 1⟩ 1
      (ramp growth).minimiser).outcome = .ok [2] := by
    obtain ⟨u, t, huses⟩ := (step_uses_all hf (Multistep.ofPreset .midpoint) 1).1
      (ramp growth).trajectory (ramp growth).minimiser (uniform_ramp growth) le_rfl
    have hstep := huses.explicit midpoint_isExplicit
    obtain ⟨hnewer, htime, holder⟩ := huses.samples_ramp (by simp [Multistep.ofPreset])
    have hsum : List.ofFn (weighted (Multistep.ofPreset .midpoint : Multistep ℝ).alpha u +
        (1 : ℝ) • weighted (Multistep.ofPreset .midpoint : Multistep ℝ).beta u) = [2] := by
      norm_num [weighted, Multistep.ofPreset, Finset.sum_Ico_eq_sum_range, Finset.sum_range_succ,
        hnewer, holder]
    rwa [hsum, hnewer, htime] at hstep
  refine ⟨hnext, ?_, ?_⟩
  · have hend : ¬(3 : ℝ) - 1 ≤ endTolerance 1 := by norm_num [endTolerance_real]
    have honward : Passage growth (.multistep (Multistep.ofPreset .midpoint))
        (ramp growth).minimiser Observer.silent 3 1 0
        ((ramp growth).start (.multistep (Multistep.ofPreset .midpoint)) () 3 1) _ :=
      .onward rfl hend hnext rfl rfl
    have hreach := Reaches.succ.mpr ⟨_, Reaches.zero.mpr rfl, passage_iff.mp honward⟩
    exact ⟨_, hreach, (step_uses_all hf (Multistep.ofPreset .midpoint) 1).2 (ramp_ready growth)
      (uniform_ramp growth) hreach⟩
  · obtain ⟨u, t, huses⟩ := (step_uses_all hf backwardTwo 1).1
      (ramp growth).trajectory (ramp growth).minimiser (uniform_ramp growth) le_rfl
    obtain ⟨residual, hstep, hzero⟩ := huses.implicit backwardTwo_isExplicit
    obtain ⟨hnewer, htime, holder⟩ := huses.samples_ramp (by simp [backwardTwo])
    rw [hnewer, htime] at hstep
    refine ⟨residual, hstep, fun a => ?_⟩
    obtain ⟨r, hr, hnonneg, hiff⟩ := hzero ![a]
    refine ⟨r, hr, hnonneg, hiff.trans ?_⟩
    have hsum : weighted backwardTwo.alpha u + (1 : ℝ) • weighted backwardTwo.beta u +
        (1 * backwardTwo.leading) • ![a] = ![4 / 3 + 2 / 3 * a] := by
      norm_num [weighted, backwardTwo, Multistep.leading, Finset.sum_Ico_eq_sum_range,
        Finset.sum_range_succ, hnewer, holder]
    rw [hsum]
    constructor
    · intro h
      have hcomponent : a = 4 / 3 + 2 / 3 * a := congrFun h 0
      linarith
    · rintro rfl
      norm_num

end Stepwise.Ode
