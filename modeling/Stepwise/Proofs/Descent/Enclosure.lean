import Mathlib.Tactic.IntervalCases
import Stepwise.Proofs.Descent.Decrease
import Stepwise.Proofs.Descent.Intervals

/-!
# Where an interval reduction finds the minimum

A function that falls up to a minimum and rises after it tells by two of its values on which
side of a point the minimum lies, if the two points differ: it lies above the lower point if the
upper one is better, and below the upper point otherwise
(`Stepwise.Descent.UnimodalOn.lt_minimum`, `Stepwise.Descent.UnimodalOn.minimum_lt`). So a round
takes away a part of the interval in which the minimum is not, and the last round ends with a
point that shares with the minimum an interval narrower than the tolerance
(`Stepwise.Descent.lineSearch_encloses`).

Nothing is asked of the function outside the bracket, and the minimum may be one of its ends.
Two equal points have equal values wherever the minimum is, so they have to differ in every
round.
-/

namespace Stepwise.Descent

open Matrix Reduction Scalar

/-! ### Functions with one minimum in an interval -/

/-- In the interval from `low` to `high` the function falls up to `m` and rises after it. -/
structure UnimodalOn (g : ℝ → ℝ) (low high m : ℝ) : Prop where
  /-- The minimum belongs to the interval. -/
  mem : low ≤ m ∧ m ≤ high
  /-- The function falls up to there. -/
  falls : StrictAntiOn g (Set.Icc low m)
  /-- It rises from there on. -/
  rises : StrictMonoOn g (Set.Icc m high)

namespace UnimodalOn

variable {g : ℝ → ℝ} {low high m t u : ℝ}

/-- A function that falls between two points has its minimum after the first. -/
theorem lt_minimum (hg : UnimodalOn g low high m) (htu : t ≤ u) (hu : u ≤ high) (hlt : g u < g t) :
    t < m := by
  by_contra hmt
  have hmt : m ≤ t := not_lt.mp hmt
  exact absurd (hg.rises.monotoneOn ⟨hmt, htu.trans hu⟩ ⟨hmt.trans htu, hu⟩ htu) (not_le.mpr hlt)

/-- A function that does not fall between two points that differ has its minimum before the
second. -/
theorem minimum_lt (hg : UnimodalOn g low high m) (ht : low ≤ t) (htu : t < u)
    (hle : ¬g u < g t) : m < u := by
  by_contra hum
  have hum : u ≤ m := not_lt.mp hum
  exact hle (hg.falls ⟨ht, htu.le.trans hum⟩ ⟨ht.trans htu.le, hum⟩ htu)

end UnimodalOn

/-! ### Intervals that hold the minimum -/

variable {g : ℝ → ℝ} {low high m tol delta : ℝ} {rates : Rates ℝ} {S : ℝ → ℝ → ℝ → Prop}
  {iter : ℕ} {s s' : Reduction ℝ} {b : Bracket ℝ}

/-- The interval is a part of the one from `low` to `high`, and the minimum is in it. -/
structure Encloses (low high m : ℝ) (s : Reduction ℝ) : Prop where
  /-- It does not begin before. -/
  low_le : low ≤ s.left
  /-- It does not begin after the minimum. -/
  left_le : s.left ≤ m
  /-- It does not end before the minimum. -/
  le_right : m ≤ s.right
  /-- It does not end after. -/
  right_le : s.right ≤ high

/-- **A round keeps the minimum in the interval**, if its two points differ. -/
theorem Encloses.next (h : Encloses low high m s) (hordered : Ordered g s)
    (hg : UnimodalOn g low high m) (hne : s.lower.t ≠ s.upper.t)
    (hround : Shrink (fun t => .ok (g t)) rates.next tol iter s (.again s')) :
    Encloses low high m s' := by
  have hlow := h.low_le.trans hordered.left_le
  have hhigh := hordered.le_right.trans h.right_le
  cases hround with
  | dropLeft hless hwide hvalue =>
    rw [hordered.lower_value, hordered.upper_value] at hless
    have hminimum := hg.lt_minimum hordered.le hhigh hless
    constructor <;> simp only [renew_left, renew_right]
    exacts [hlow, hminimum.le, h.le_right, h.right_le]
  | dropRight hless hwide hvalue =>
    rw [hordered.lower_value, hordered.upper_value] at hless
    have hminimum := hg.minimum_lt hlow (hordered.le.lt_of_ne hne) hless
    constructor <;> simp only [renew_left, renew_right]
    exacts [h.low_le, h.left_le, hminimum.le, hhigh]

/-- **The last round ends within the tolerance of the minimum.** -/
theorem Encloses.near (h : Encloses low high m s) (hordered : Ordered g s)
    (hg : UnimodalOn g low high m) (hne : s.lower.t ≠ s.upper.t) {hit : Hit ℝ}
    (hround : Shrink (fun t => .ok (g t)) rates.next tol iter s (.done hit)) :
    |hit.t - m| < tol := by
  have hleft := hordered.left_le
  have hright := hordered.le_right
  cases hround with
  | upper hless hnarrow =>
    rw [hordered.lower_value, hordered.upper_value] at hless
    have hminimum := hg.lt_minimum hordered.le (hright.trans h.right_le) hless
    have hend := h.le_right
    exact abs_sub_lt_iff.mpr ⟨by linarith, by linarith [hordered.le]⟩
  | lower hless hnarrow =>
    rw [hordered.lower_value, hordered.upper_value] at hless
    have hminimum := hg.minimum_lt (h.low_le.trans hleft) (hordered.le.lt_of_ne hne) hless
    have hend := h.left_le
    exact abs_sub_lt_iff.mpr ⟨by linarith [hordered.le], by linarith⟩

/-- **The intervals of a reduction hold the minimum of its bracket**, as long as the points that
were compared have differed. -/
theorem Reduction.Reached.encloses {search : LineSearch} (hrates : Reduces search rates)
    (hg : UnimodalOn g b.low b.high m) {n : ℕ}
    (hapart : ∀ k < n, ∀ s, Reached (fun t => .ok (g t)) rates delta b k s → s.lower.t ≠ s.upper.t)
    (h : Reached (fun t => .ok (g t)) rates delta b n s) :
    Ordered g s ∧ Encloses b.low b.high m s := by
  obtain ⟨S, hspacing⟩ := hrates.exists_spacing
  induction n generalizing s with
  | zero =>
    obtain ⟨start, hstart, hordered, hleft, hright, -⟩ :=
      ordered_start g hspacing (hg.mem.1.trans hg.mem.2)
    cases (reached_zero.mp h).symm.trans hstart
    exact ⟨hordered, hleft.ge, hleft.le.trans hg.mem.1, hg.mem.2.trans hright.ge, hright.le⟩
  | succ n ih =>
    obtain ⟨before, hbefore, hround⟩ := reached_succ.mp h
    obtain ⟨hordered, hencloses⟩ := ih (fun k hk => hapart k (by omega)) hbefore
    exact ⟨hordered.next hspacing hround,
      hencloses.next hordered hg (hapart n (by omega) before hbefore) hround⟩

/-! ### The intervals of one search -/

/-- The intervals of the reduction by Fibonacci numbers over the minimum of the square: the part on
the right goes, once more, and then the part on the left. -/
noncomputable def narrowing : ℕ → Reduction ℝ
  | 0 => ⟨1, ofNat 3, ⟨ratio 9 5, ratio 9 100⟩, ⟨ratio 11 5, ratio 49 100⟩, ratio 3 5⟩
  | 1 => ⟨1, ratio 11 5, ⟨ratio 37 25, ratio 1 2500⟩, ⟨ratio 9 5, ratio 9 100⟩, ratio 5 8⟩
  | 2 => ⟨1, ratio 9 5, ⟨ratio 13 10, ratio 1 25⟩, ⟨ratio 37 25, ratio 1 2500⟩, ratio 8 13⟩
  | _ => ⟨ratio 13 10, ratio 9 5, ⟨ratio 37 25, ratio 1 2500⟩, ⟨ratio 209 130, ratio 49 4225⟩,
      ratio 13 21⟩

/-- Each comes from the one before by a round. -/
theorem shrink_narrowing {n : ℕ} (hn : n < 3) :
    Shrink (fun t => .ok ((-3 / 2 + t) ^ 2)) Rates.fibonacci.next (1 / 2) n (narrowing n)
      (.again (narrowing (n + 1))) := by
  rw [shrink_iff]
  interval_cases n <;>
    norm_num [narrowing, Reduction.next, dropLeft, dropRight, renew, inOrder, Probe.at,
      Rates.fibonacci, pure, Except.pure]

/-- From the last one the search goes to its answer. -/
theorem done_narrowing :
    Shrink (fun t => .ok ((-3 / 2 + t) ^ 2)) Rates.fibonacci.next (1 / 2) 3 (narrowing 3)
      (.done ⟨3, 37 / 25⟩) := by
  rw [shrink_iff]
  norm_num [narrowing, Reduction.next]

theorem reached_narrowing {n : ℕ} (hn : n ≤ 3) :
    Reached (fun t => .ok ((-3 / 2 + t) ^ 2)) Rates.fibonacci (finer .fibonacci).delta
      ⟨1, 3, true⟩ n (narrowing n) := by
  induction n with
  | zero =>
    refine reached_zero.mpr ?_
    norm_num [narrowing, Reduction.start, Probe.at, Rates.fibonacci, pure, Except.pure]
  | succ n ih =>
    refine reached_succ.mpr ⟨_, ih (by omega), ?_⟩
    rw [tolerance_finer]
    exact shrink_narrowing hn

/-- These are all the intervals that the search reaches. -/
theorem eq_narrowing {n : ℕ} {s : Reduction ℝ}
    (h : Reached (fun t => .ok ((-3 / 2 + t) ^ 2)) Rates.fibonacci (finer .fibonacci).delta
      ⟨1, 3, true⟩ n s) : n ≤ 3 ∧ s = narrowing n := by
  have hdone := done_narrowing
  rw [← tolerance_finer .fibonacci] at hdone
  have hn := h.le_of_done (reached_narrowing le_rfl) hdone
  exact ⟨hn, h.unique (reached_narrowing hn)⟩

/-- The search lands in the fourth round. -/
theorem lineSearch_narrowing :
    lineSearch (square.complete 1) (finer .fibonacci) (List.ofFn ![-3 / 2]) (List.ofFn ![1]) =
      .ok ⟨List.ofFn ![-1 / 50], some ⟨3, 37 / 25⟩⟩ := by
  have hrates : Reduces (finer .fibonacci).search (Rates.fibonacci : Rates ℝ) := .fibonacci
  refine hrates.lineSearch_eq_ok.mpr ⟨⟨List.ofFn ![-3 / 2], List.ofFn ![1]⟩, _, 3, narrowing 3,
    ⟨3, 37 / 25⟩, List.ofFn ![-1 / 50], ?_, bracket_across, by decide, ?_, ?_, ?_, rfl⟩
  · rw [ofDirection_ofFn (by simp [dotProduct]), unit_one]
  · rw [value_square]
    exact reached_narrowing le_rfl
  · rw [value_square, tolerance_finer]
    exact done_narrowing
  · rw [point_ofFn]
    norm_num

/-! ### The line searches -/

variable {n : ℕ} {F : (Fin n → ℝ) → ℝ} {f : Oracle ℝ} {settings : Settings ℝ} {x p : Fin n → ℝ}

/-- **An interval reduction finds the minimum of its bracket**: every interval holds it, and the
point that is found is nearer to it than the tolerance. -/
theorem lineSearch_encloses (hrates : Reduces settings.search rates) (hf : HasValue f F)
    (hb : (⟨List.ofFn x, List.ofFn (unit p)⟩ : Ray ℝ).bracket f settings = .ok b)
    (hg : UnimodalOn (slice F x (unit p)) b.low b.high m)
    (hapart : ∀ n < settings.maxIters, ∀ s,
      Reached ((⟨List.ofFn x, List.ofFn (unit p)⟩ : Ray ℝ).value f) rates settings.delta b n s →
        s.lower.t ≠ s.upper.t) :
    (∀ n ≤ settings.maxIters, ∀ s,
      Reached ((⟨List.ofFn x, List.ofFn (unit p)⟩ : Ray ℝ).value f) rates settings.delta b n s →
        s.left ≤ m ∧ m ≤ s.right) ∧
    ∀ landing, lineSearch f settings (List.ofFn x) (List.ofFn p) = .ok landing →
      ∃ t, landing.point = List.ofFn (x + t • unit p) ∧
        |t - m| < tolerance settings.delta (b.high - b.low) := by
  have hkept {n : ℕ} (hn : n ≤ settings.maxIters) {s : Reduction ℝ}
      (hs : Reached ((⟨List.ofFn x, List.ofFn (unit p)⟩ : Ray ℝ).value f) rates settings.delta b
        n s) : Ordered (slice F x (unit p)) s ∧ Encloses b.low b.high m s := by
    rw [hf.slice] at hs hapart
    exact hs.encloses hrates hg fun k hk => hapart k (by omega)
  refine ⟨fun n hn s hs => ?_, fun landing h => ?_⟩
  · have hencloses := (hkept hn hs).2
    exact ⟨hencloses.left_le, hencloses.le_right⟩
  · obtain ⟨ray, b', k, mid, hit, point, hray, hb', hk, hmid, hdone, hpoint, rfl⟩ :=
      hrates.lineSearch_eq_ok.mp h
    obtain rfl := ofDirection_eq_ok hray
    cases hb.symm.trans hb'
    obtain ⟨hordered, hencloses⟩ := hkept hk.le hmid
    have hne := hapart k hk mid hmid
    rw [point_ofFn] at hpoint
    rw [hf.slice] at hdone
    cases hpoint
    exact ⟨hit.t, rfl, hencloses.near hordered hg hne hdone⟩

/-- The intervals of the search over the minimum of the square hold it, and it lands near it. -/
theorem lineSearch_encloses_narrowing :
    (∀ n ≤ 3, (narrowing n).left ≤ 3 / 2 ∧ 3 / 2 ≤ (narrowing n).right) ∧
      ∃ t, List.ofFn ![(-1 / 50 : ℝ)] = List.ofFn (![-3 / 2] + t • unit ![1]) ∧
        |t - 3 / 2| < tolerance (finer .fibonacci).delta (3 - 1) := by
  have hrates : Reduces (finer .fibonacci).search (Rates.fibonacci : Rates ℝ) := .fibonacci
  have hbracket : (⟨List.ofFn ![-3 / 2], List.ofFn (unit ![1])⟩ : Ray ℝ).bracket
      (square.complete 1) (finer .fibonacci) = .ok ⟨1, 3, true⟩ := by
    rw [unit_one]
    exact bracket_across
  have hunimodal : UnimodalOn (slice (fun u => u ⬝ᵥ u) ![-3 / 2] (unit ![1])) 1 3 (3 / 2) := by
    have hsquare := unimodal_of_strictConvexOn (strictConvexOn_slice_square (-3 / 2))
      (slice_square_minimum (m := 3 / 2) (by norm_num))
    rw [unit_one]
    exact ⟨by norm_num, hsquare.falls.mono Set.Icc_subset_Iic_self,
      hsquare.rises.mono Set.Icc_subset_Ici_self⟩
  obtain ⟨hencloses, hnear⟩ := lineSearch_encloses hrates (square_hasValue 1) hbracket hunimodal
    fun n _ s hs => by
      rw [unit_one, value_square] at hs
      obtain ⟨hn, rfl⟩ := eq_narrowing hs
      interval_cases n <;> norm_num [narrowing]
  refine ⟨fun n hn => ?_, hnear _ lineSearch_narrowing⟩
  have hreached := reached_narrowing hn
  rw [← value_square _ 1, ← unit_one] at hreached
  exact hencloses n (hn.trans (by decide)) _ hreached

end Stepwise.Descent
