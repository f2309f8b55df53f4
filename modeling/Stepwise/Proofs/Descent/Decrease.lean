import Stepwise.Proofs.Descent.Bracket
import Stepwise.Proofs.Descent.Halvings
import Stepwise.Proofs.Descent.QuasiNewton
import Stepwise.Proofs.Descent.Reduction

/-!
# How much a line search loses

A line search that closes a bracket and then narrows it down does not promise to land
lower than it started. It lands within its tolerance of a point that is no worse than the
start, and if it bisects, it may also be content with a value or with a slope that it
takes for zero (`Stepwise.Descent.Decreased`). With a tolerance of zero only the latter
is left.

An interval reduction keeps to that on every bracket that the bracketing search returns.
A bisection does so unless the search has closed an interval that begins after the
minimum: the slope is positive throughout such an interval, and the bisection runs to its
upper end, of which nothing is known.
-/

namespace Stepwise.Descent

open Matrix

variable {n : ℕ} {F : (Fin n → ℝ) → ℝ} {G : (Fin n → ℝ) → Fin n → ℝ} {f : Oracle ℝ}
  {s : Settings ℝ} {x p : Fin n → ℝ} {m : ℝ} {landing : Landing ℝ}

/-- How a point of a slice compares with the start, after a search in an interval of the given
width. -/
inductive Decreased (g : ℝ → ℝ) (s : Settings ℝ) (width t : ℝ) : Prop
  /-- It is within the tolerance of a point that is no worse than the start. -/
  | near {y : ℝ} (hnear : |t - y| ≤ tolerance s.delta width) (hle : g y ≤ g 0)
  /-- Its value is as good as zero. -/
  | small (hsearch : s.search = .bisection) (hvalue : |g t| < s.epsilon)
  /-- Its slope is as good as zero, and so it is not much worse than the start. -/
  | flat (hsearch : s.search = .bisection) (hvalue : g t ≤ g 0 + s.epsilon * width)

/-! ### The parts of a search -/

/-- The least width that counts is positive, and not above one. -/
theorem leastNormal_mem : 0 < (Scalar.leastNormal : ℝ) ∧ (Scalar.leastNormal : ℝ) ≤ 1 := by
  unfold Scalar.leastNormal
  -- Nothing depends on the exponent, and the power is too large to be written out.
  generalize 1022 = k
  have hone : (1 : ℝ) ≤ (Nat.pow 2 k : ℕ) := by exact_mod_cast Nat.one_le_two_pow
  rw [Scalar.ratio_real, Nat.cast_one]
  exact ⟨by positivity, (div_le_one (by linarith)).mpr hone⟩

theorem tolerance_nonneg (hs : s.check = .ok ()) (width : ℝ) : 0 ≤ tolerance s.delta width := by
  refine mul_nonneg (Settings.delta_nonneg hs) ?_
  rw [Scalar.clamp]
  split_ifs with hlow hhigh hhigh
  · simp
  · exact leastNormal_mem.1.le
  · simp
  · exact leastNormal_mem.1.le.trans (not_lt.mp hlow)

theorem tolerance_one (delta : ℝ) : tolerance delta 1 = delta := by
  rw [tolerance, Scalar.clamp, if_neg (not_lt.mpr leastNormal_mem.2)]
  simp

/-- The tolerance of an interval that begins one before zero and ends there. -/
theorem tolerance_unit (delta : ℝ) : tolerance delta (0 - -1) = delta := by
  rw [show (0 : ℝ) - -1 = 1 by norm_num, tolerance_one]

/-- A search along the unit direction lands where it hits the ray. -/
theorem landAlong_ofFn {find : Ray ℝ → Except (Failure (Breakdown ℝ)) (Option (Hit ℝ))}
    (h : landAlong find s (List.ofFn x) (List.ofFn p) = .ok landing) :
    ∃ hit, find ⟨List.ofFn x, List.ofFn (unit p)⟩ = .ok (some hit) ∧
      landing.point = List.ofFn (x + hit.t • unit p) := by
  obtain ⟨ray, hit, point, hray, hfind, hpoint, rfl⟩ := landAlong_eq_ok.mp h
  obtain rfl := ofDirection_eq_ok hray
  rw [point_ofFn] at hpoint
  cases hpoint
  exact ⟨hit, hfind, rfl⟩

/-- An interval reduction on the bracket of the slice. -/
theorem reduce_decreased {rates : Rates ℝ} {S : ℝ → ℝ → ℝ → Prop} (hspacing : Spacing rates S)
    (hf : HasValue f F) (hg : Unimodal (slice F x p) m) {b : Bracket ℝ}
    (hb : (⟨List.ofFn x, List.ofFn p⟩ : Ray ℝ).bracket f s = .ok b)
    (hbracketed : Bracketed (slice F x p) b) {hit : Hit ℝ}
    (h : Ray.reduce rates f s ⟨List.ofFn x, List.ofFn p⟩ = .ok (some hit)) :
    Decreased (slice F x p) s (b.high - b.low) hit.t := by
  simp only [Ray.reduce, hb, hf.slice, lift_eq_ofFault, Failure.ofFault_ok, ok_bind,
    Failure.ofFault_eq_ok] at h
  obtain ⟨y, hnear, hle⟩ :=
    Reduction.search_near hspacing hg hbracketed.low_le_high hbracketed.ends h
  exact .near hnear hle

/-- A bisection of the bracket of the slice. -/
theorem bisect_decreased (hf : HasValue f F) (hG : HasExactGradient f F G) (hs : s.check = .ok ())
    (hsearch : s.search = .bisection) (hconvex : StrictConvexOn ℝ Set.univ (slice F x p))
    (hm : ∀ t, slice F x p m ≤ slice F x p t) {b : Bracket ℝ}
    (hb : (⟨List.ofFn x, List.ofFn p⟩ : Ray ℝ).bracket f s = .ok b)
    (hbracketed : Bracketed (slice F x p) b) (hlow : b.closed = true → b.low ≤ m) {hit : Hit ℝ}
    (h : Ray.bisect f s ⟨List.ofFn x, List.ofFn p⟩ = .ok (some hit)) :
    Decreased (slice F x p) s (b.high - b.low) hit.t := by
  simp only [Ray.bisect, hb, hf.slice, hG.slope, lift_eq_ofFault, Failure.ofFault_ok, ok_bind,
    Failure.ofFault_eq_ok] at h
  have hvalley : Valley (slice F x p) (fun t => G (x + t • p) ⬝ᵥ p) m :=
    ⟨hconvex, hasDerivAt_slice x p hG, hm⟩
  cases hclosed : b.closed with
  | true =>
    have hends := hbracketed.ends.imp id And.right
    rcases Halving.search_near hvalley hbracketed.low_le_high (hlow hclosed) hends h with
      ⟨y, hnear, hle⟩ | hsmall | hflat
    · exact .near hnear hle
    · exact .small hsearch hsmall
    · exact .flat hsearch hflat
  | false =>
    obtain ⟨hleft, hright⟩ := hbracketed.ends_of_cut hclosed
    obtain ⟨hlow, hhigh⟩ := Halving.search_mem hbracketed.low_le_high h
    refine .near (y := hit.t) ?_ ((hvalley.unimodal.le_max hlow hhigh).trans (max_le hleft hright))
    rw [sub_self, abs_zero]
    exact tolerance_nonneg hs _

/-! ### A search from the minimum -/

/-- Settings with a first step and a tolerance as long as the unit. -/
noncomputable def coarse : Settings ℝ := { unitStep with delta := 1, search := .fibonacci }

theorem coarse_check : coarse.check = .ok () := by
  rw [check_eq_ok_iff]
  norm_num [coarse, unitStep, Settings.default, Scalar.singleGap]

theorem unit_one : unit ![(1 : ℝ)] = ![1] := by
  simp [unit, dotProduct]

theorem square_hasExactGradient (h : ℝ) :
    HasExactGradient (square.complete h) (fun u : Fin n → ℝ => u ⬝ᵥ u) doubled := by
  refine ⟨square_hasGradient.complete h, fun u v => ?_⟩
  have hexpand : (fun t : ℝ => (u + t • v) ⬝ᵥ (u + t • v)) =
      fun t => u ⬝ᵥ u + t * (2 * (u ⬝ᵥ v)) + t ^ 2 * (v ⬝ᵥ v) := by
    funext t
    simp only [add_dotProduct, dotProduct_add, smul_dotProduct, dotProduct_smul, smul_eq_mul,
      dotProduct_comm v u]
    ring
  have hlinear := (hasDerivAt_mul_const (x := (0 : ℝ)) (2 * (u ⬝ᵥ v))).const_add (u ⬝ᵥ u)
  have hsquare := ((hasDerivAt_pow 2 (0 : ℝ)).mul_const (v ⬝ᵥ v))
  rw [hexpand]
  exact (hlinear.fun_add hsquare).congr_deriv (by simp [doubled])

/-- At its minimum the square is bracketed by the two first steps. -/
theorem bracket_coarse :
    (⟨List.ofFn ![0], List.ofFn ![1]⟩ : Ray ℝ).bracket (square.complete 1) coarse =
      .ok ⟨-1, 0, true⟩ := by
  simp only [Ray.bracket, value_square, zero_add]
  exact search_turned (g := fun t => t ^ 2) one_pos (by norm_num [slack]) (by norm_num)
    (by norm_num) 32765

/-- From its minimum the search goes two fifths of the unit up the square. -/
theorem lineSearch_coarse :
    lineSearch (square.complete 1) coarse (List.ofFn ![0]) (List.ofFn ![1]) =
      .ok ⟨List.ofFn ![-2 / 5], some ⟨0, -2 / 5⟩⟩ := by
  have hdirection : Ray.ofDirection (List.ofFn ![(0 : ℝ)]) (List.ofFn ![1]) =
      .ok ⟨List.ofFn ![0], List.ofFn ![1]⟩ := by
    rw [ofDirection_ofFn (by simp [dotProduct]), unit_one]
  have hround : (⟨-1, 0, ⟨-3 / 5, 9 / 25⟩, ⟨-2 / 5, 4 / 25⟩, 3 / 5⟩ : Reduction ℝ).next
      (fun t => .ok (t ^ 2)) Rates.fibonacci.next (tolerance 1 (0 - -1)) 0 =
        .ok (.done ⟨0, -2 / 5⟩) := by
    rw [tolerance_unit]
    norm_num [Reduction.next]
  have hreduce : Reduction.search (fun t => .ok (t ^ 2)) Rates.fibonacci (1 : ℝ) coarse.maxIters
      ⟨-1, 0, true⟩ = .ok (some ⟨0, -2 / 5⟩) := by
    have hstart : Reduction.start (fun t => .ok (t ^ 2)) (Rates.fibonacci.first : ℝ) ⟨-1, 0, true⟩ =
        .ok ⟨-1, 0, ⟨-3 / 5, 9 / 25⟩, ⟨-2 / 5, 4 / 25⟩, 3 / 5⟩ := by
      norm_num [Reduction.start, Probe.at, Rates.fibonacci, pure, Except.pure]
    rw [Reduction.search, hstart, ok_bind, show coarse.maxIters = 32766 + 1 from rfl,
      rounds_succ_of_done (by rw [hround]; rfl)]
    rfl
  refine landAlong_eq_ok.mpr ⟨_, ⟨0, -2 / 5⟩, List.ofFn ![-2 / 5], hdirection, ?_, ?_, rfl⟩
  · simp only [Ray.reduce, bracket_coarse, value_square, zero_add, lift_eq_ofFault,
      Failure.ofFault_ok, ok_bind]
    rw [show coarse.delta = 1 from rfl, hreduce, Failure.ofFault_ok]
  · rw [point_ofFn]
    simp

/-! ### A search over the minimum -/

/-- Settings with a first step as long as the unit and a tolerance half as long. -/
noncomputable def finer (search : LineSearch) : Settings ℝ :=
  { unitStep with delta := Scalar.ratio 1 2, search := search }

theorem finer_check (search : LineSearch) : (finer search).check = .ok () := by
  rw [check_eq_ok_iff]
  norm_num [finer, unitStep, Settings.default, Scalar.singleGap]

/-- The tolerance is no longer in a bracket that is longer than the unit. -/
theorem tolerance_finer (search : LineSearch) : tolerance (finer search).delta (3 - 1) = 1 / 2 := by
  have hwide : (Scalar.leastNormal : ℝ) ≤ 3 - 1 := leastNormal_mem.2.trans (by norm_num)
  rw [tolerance, Scalar.clamp, if_neg (not_lt.mpr hwide)]
  norm_num [finer]

/-- The bisection of the bracket finds the minimum in the second round. -/
theorem lineSearch_finer :
    lineSearch (square.complete 1) (finer .bisection) (List.ofFn ![-3 / 2]) (List.ofFn ![1]) =
      .ok ⟨List.ofFn ![0], some ⟨1, 3 / 2⟩⟩ := by
  have hray : Ray.ofDirection (List.ofFn ![(-3 / 2 : ℝ)]) (List.ofFn ![1]) =
      .ok ⟨List.ofFn ![-3 / 2], List.ofFn ![1]⟩ := by
    rw [ofDirection_ofFn (by simp [dotProduct]), unit_one]
  have hslope : (⟨List.ofFn ![-3 / 2], List.ofFn ![1]⟩ : Ray ℝ).slope (square.complete 1) =
      fun t => .ok (2 * (-3 / 2 + t)) := by
    rw [(square_hasExactGradient 1).slope]
    funext t
    simp [doubled, dotProduct]
  have hfirst : Halving.Reached (fun t => .ok ((-3 / 2 + t) ^ 2))
      (fun t => .ok (2 * (-3 / 2 + t))) (finer .bisection).epsilon (finer .bisection).delta
      (⟨1, 3, true⟩ : Bracket ℝ) 0 ⟨1, 3, -1, 2⟩ :=
    Halving.reached_zero.mpr ⟨-1, by norm_num, by norm_num [Halving.middle]⟩
  refine (bisection_eq_ok rfl).mpr ⟨_, _, 1, ⟨1, 2, -1, 3 / 2⟩, ⟨1, 3 / 2⟩, List.ofFn ![0], hray,
    bracket_across, by decide, ?_, ?_, ?_, rfl⟩
  · -- The slope is positive in the middle, so the lower half is kept.
    rw [value_square, hslope]
    refine Halving.reached_succ.mpr ⟨_, hfirst, ?_⟩
    rw [tolerance_finer]
    norm_num [Halving.next, Halving.settled, Halving.half, Halving.sameSide, Halving.middle, finer,
      unitStep, Settings.default, Scalar.singleGap, pure, Except.pure]
  · rw [value_square, hslope, tolerance_finer]
    norm_num [Halving.next, Halving.settled, finer, unitStep, Settings.default, Scalar.singleGap,
      pure, Except.pure]
  · rw [point_ofFn]
    norm_num

/-! ### What a search promises -/

/-- **What a bracketed line search promises**: where it lands is within the tolerance of a point
no worse than the start, or, after a bisection, has a value or a slope as good as zero; of
bisections this is said unless the bracketing search closed an interval that begins after the
minimum. -/
theorem lineSearch_decreased (hf : HasValue f F) (hG : HasExactGradient f F G)
    (hs : s.check = .ok ())
    (hsearch : s.search = .goldenSection ∨ s.search = .fibonacci ∨ s.search = .bisection)
    (hconvex : StrictConvexOn ℝ Set.univ (slice F x (unit p)))
    (hm : ∀ t, slice F x (unit p) m ≤ slice F x (unit p) t)
    (h : lineSearch f s (List.ofFn x) (List.ofFn p) = .ok landing) :
    ∃ b t, (⟨List.ofFn x, List.ofFn (unit p)⟩ : Ray ℝ).bracket f s = .ok b ∧
      landing.point = List.ofFn (x + t • unit p) ∧
      ((s.search = .bisection → b.closed = true → b.low ≤ m) →
        Decreased (slice F x (unit p)) s (b.high - b.low) t) := by
  obtain ⟨b, hb, hbracketed⟩ := bracket_bracketed hf hs x (unit p)
  have hg := unimodal_of_strictConvexOn hconvex hm
  rcases hsearch with hsearch | hsearch | hsearch <;> rw [lineSearch, hsearch] at h
  · obtain ⟨hit, hfind, hpoint⟩ := landAlong_ofFn h
    exact ⟨b, hit.t, hb, hpoint, fun _ => reduce_decreased spacing_golden hf hg hb hbracketed hfind⟩
  · obtain ⟨hit, hfind, hpoint⟩ := landAlong_ofFn h
    exact ⟨b, hit.t, hb, hpoint,
      fun _ => reduce_decreased spacing_fibonacci hf hg hb hbracketed hfind⟩
  · obtain ⟨hit, hfind, hpoint⟩ := landAlong_ofFn h
    exact ⟨b, hit.t, hb, hpoint, fun hlow => bisect_decreased hf hG hs hsearch hconvex hm hb
      hbracketed (hlow hsearch) hfind⟩

/-- What a search promises where it climbs, by Fibonacci numbers, and what a bisection promises of
a bracket that begins before the minimum. -/
theorem lineSearch_decreased_square :
    (∃ t, List.ofFn ![(-2 / 5 : ℝ)] = List.ofFn (![0] + t • unit ![1]) ∧
      Decreased (slice (fun u => u ⬝ᵥ u) ![0] (unit ![1])) coarse (0 - -1) t) ∧
    ∃ t, List.ofFn ![(0 : ℝ)] = List.ofFn (![-3 / 2] + t • unit ![1]) ∧
      Decreased (slice (fun u => u ⬝ᵥ u) ![-3 / 2] (unit ![1])) (finer .bisection) (3 - 1) t := by
  have hconvex (a : ℝ) :
      StrictConvexOn ℝ Set.univ (slice (fun u => u ⬝ᵥ u) ![a] (unit ![1])) := by
    rw [unit_one]
    exact strictConvexOn_slice_square a
  have hminimum {a m : ℝ} (h : a + m = 0) (t : ℝ) :
      slice (fun u => u ⬝ᵥ u) ![a] (unit ![1]) m ≤
        slice (fun u => u ⬝ᵥ u) ![a] (unit ![1]) t := by
    rw [unit_one]
    exact slice_square_minimum h t
  constructor
  · obtain ⟨b, t, hb, hpoint, hdecreased⟩ := lineSearch_decreased (square_hasValue 1)
      (square_hasExactGradient 1) coarse_check (.inr (.inl rfl)) (hconvex 0)
      (hminimum (zero_add 0)) lineSearch_coarse
    rw [unit_one] at hb
    cases bracket_coarse.symm.trans hb
    exact ⟨t, hpoint, hdecreased fun hsearch => nomatch hsearch⟩
  · obtain ⟨b, t, hb, hpoint, hdecreased⟩ := lineSearch_decreased (m := 3 / 2) (square_hasValue 1)
      (square_hasExactGradient 1) (finer_check .bisection) (.inr (.inr rfl)) (hconvex (-3 / 2))
      (hminimum (by norm_num)) lineSearch_finer
    rw [unit_one] at hb
    cases bracket_across.symm.trans hb
    exact ⟨t, hpoint, hdecreased fun _ _ => by norm_num⟩

/-- **A bracketed line search can climb**: on a strictly convex slice that has a minimum, and even
from the minimum. -/
theorem lineSearch_climbs :
    coarse.check = .ok () ∧ coarse.search = .fibonacci ∧ (![1] : Fin 1 → ℝ) ≠ 0 ∧
      HasValue (square.complete 1) (fun u : Fin 1 → ℝ => u ⬝ᵥ u) ∧
      HasExactGradient (square.complete 1) (fun u : Fin 1 → ℝ => u ⬝ᵥ u) doubled ∧
      StrictConvexOn ℝ Set.univ (slice (fun u => u ⬝ᵥ u) ![0] (unit ![1])) ∧
      (∀ t, slice (fun u => u ⬝ᵥ u) ![0] (unit ![1]) 0 ≤
        slice (fun u => u ⬝ᵥ u) ![0] (unit ![1]) t) ∧
      ∃ landing : Landing ℝ, ∃ next : Fin 1 → ℝ,
        lineSearch (square.complete 1) coarse (List.ofFn ![0]) (List.ofFn ![1]) = .ok landing ∧
        landing.point = List.ofFn next ∧ ¬next ⬝ᵥ next ≤ ![0] ⬝ᵥ ![0] := by
  refine ⟨coarse_check, rfl, by simp, square_hasValue 1, square_hasExactGradient 1, ?_, ?_, _, _,
    lineSearch_coarse, rfl, ?_⟩
  · rw [unit_one]
    exact strictConvexOn_slice_square 0
  · rw [unit_one]
    exact slice_square_minimum (by norm_num)
  · norm_num [dotProduct]

end Stepwise.Descent
