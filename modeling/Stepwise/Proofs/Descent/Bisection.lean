import Mathlib.Analysis.Calculus.LocalExtr.Basic
import Mathlib.Tactic.Linarith
import Mathlib.Tactic.SplitIfs
import Stepwise.Descent.Bisection
import Stepwise.Proofs.Rounds
import Stepwise.Proofs.Descent.Slices

/-!
# How good the point is that a bisection finds

A round of a bisection looks at the slope in the middle of the interval. The middle is
the answer if the interval is narrow, or if the value or the slope there is small;
otherwise one half of the interval is left (`Stepwise.Descent.Cut`).

In exact arithmetic, and for a strictly convex function, the sign of the slope says on
which side of the minimum a point lies. If the interval begins at or before the minimum,
so does every interval after it, and an end that is not above a level stays, or moves
towards the minimum and so does not rise (`Stepwise.Descent.Sloping`). The answer is near
such an end, or its value is small, or a small slope leads from it to such an end, and
then it is not far above the level (`Stepwise.Descent.Halving.search_near`).

If both ends are not above a level, then nothing between them is, wherever the minimum
lies (`Stepwise.Descent.Halving.search_le`).
-/

namespace Stepwise.Descent

/-! ### One round -/

section Rounds

variable {R : Type} [Scalar R]

open Scalar Halving

/-- What a round of a bisection comes to, if the slope in the middle is `midSlope`. -/
inductive Cut (φ : R → Except Fault R) (epsilon tol : R) (iter : Nat) (s : Halving R)
    (midSlope : R) : Round (Halving R) (Hit R) → Prop
  /-- The interval is narrow. -/
  | narrow (hnarrow : s.right - s.left < tol) :
      Cut φ epsilon tol iter s midSlope (.done ⟨iter, s.mid⟩)
  /-- The value or the slope in the middle is small. -/
  | small {value : R} (hwide : ¬s.right - s.left < tol) (hvalue : φ s.mid = .ok value)
      (hsmall : abs value < epsilon ∨ abs midSlope < epsilon) :
      Cut φ epsilon tol iter s midSlope (.done ⟨iter, s.mid⟩)
  /-- One half is left. -/
  | half {value : R} (hwide : ¬s.right - s.left < tol) (hvalue : φ s.mid = .ok value)
      (hlarge : ¬abs value < epsilon ∧ ¬abs midSlope < epsilon) :
      Cut φ epsilon tol iter s midSlope (.again (s.half midSlope))

/-- **A round comes to one of the three.** -/
theorem cut_iff {φ slope : R → Except Fault R} {epsilon tol : R} {iter : Nat} {s : Halving R}
    {r : Round (Halving R) (Hit R)} :
    (∃ midSlope, slope s.mid = .ok midSlope ∧ Cut φ epsilon tol iter s midSlope r) ↔
      s.next φ slope epsilon tol iter = .ok r := by
  constructor
  · rintro ⟨midSlope, hslope, hnarrow | ⟨hwide, hvalue, hsmall⟩ | ⟨hwide, hvalue, hlarge⟩⟩
    · simp [Halving.next, Halving.settled, hslope, hnarrow, pure, Except.pure]
    · simp [Halving.next, Halving.settled, hslope, hwide, hvalue, hsmall, pure, Except.pure]
    · simp [Halving.next, Halving.settled, hslope, hwide, hvalue, hlarge, pure, Except.pure]
  · intro h
    obtain ⟨midSlope, hslope, h⟩ := bind_eq_ok.mp h
    obtain ⟨settled, hsettled, h⟩ := bind_eq_ok.mp h
    refine ⟨midSlope, hslope, ?_⟩
    rw [Halving.settled] at hsettled
    split_ifs at hsettled h with hnarrow hyes hyes
    · cases h
      exact .narrow hnarrow
    · cases hsettled
      exact absurd rfl hyes
    · obtain ⟨value, hvalue, heq⟩ := bind_eq_ok.mp hsettled
      cases h
      cases heq
      exact .small hnarrow hvalue (by simpa using hyes)
    · obtain ⟨value, hvalue, heq⟩ := bind_eq_ok.mp hsettled
      cases h
      cases heq
      exact .half hnarrow hvalue (by simpa using hyes)

/-- A bisection finds its answer in the round that makes one of the interval reached. -/
theorem Halving.search_eq_some {φ slope : R → Except Fault R} {epsilon delta : R} {cap : Nat}
    {b : Bracket R} {hit : Hit R}
    (h : Halving.search φ slope epsilon delta cap b = .ok (some hit)) :
    ∃ leftSlope, slope b.low = .ok leftSlope ∧ ∃ n < cap, ∃ mid,
      rounds (fun iter (s : Halving R) => .orFail (s.next φ slope epsilon
        (tolerance delta (b.high - b.low)) iter)) n 0
        ⟨b.low, b.high, leftSlope, middle b.low b.high⟩ = .again mid ∧
      mid.next φ slope epsilon (tolerance delta (b.high - b.low)) (0 + n) = .ok (.done hit) := by
  obtain ⟨leftSlope, hslope, h⟩ := bind_eq_ok.mp h
  dsimp only at h
  split at h
  · exact nomatch h
  · rename_i found hrounds
    obtain ⟨hit', rfl, heq⟩ := bind_eq_ok.mp h
    cases heq
    exact ⟨leftSlope, hslope, rounds_orFail_eq_done_ok.mp hrounds⟩

end Rounds

/-! ### The interval -/

variable {g slope : ℝ → ℝ} {m c epsilon tol lo hi : ℝ} {iter : ℕ} {s s' : Halving ℝ}

/-- An interval inside the one the bisection started with, of which the middle and the slope at
the lower end are known. -/
structure Within (slope : ℝ → ℝ) (lo hi : ℝ) (s : Halving ℝ) : Prop where
  /-- It begins inside. -/
  lo_le : lo ≤ s.left
  /-- It is an interval. -/
  le : s.left ≤ s.right
  /-- It ends inside. -/
  le_hi : s.right ≤ hi
  /-- The slope at the lower end. -/
  leftSlope_eq : s.leftSlope = slope s.left
  /-- The middle. -/
  mid_eq : s.mid = (s.left + s.right) / 2

theorem Within.left_le_mid (h : Within slope lo hi s) : s.left ≤ s.mid := by
  rw [h.mid_eq]
  linarith [h.le]

theorem Within.mid_le_right (h : Within slope lo hi s) : s.mid ≤ s.right := by
  rw [h.mid_eq]
  linarith [h.le]

theorem middle_real (a b : ℝ) : Halving.middle a b = (a + b) / 2 := by
  simp only [Halving.middle, Scalar.ratio_real, Nat.cast_one, Nat.cast_ofNat]
  ring

/-- **A round stays within the interval.** -/
theorem Within.half (h : Within slope lo hi s) :
    Within slope lo hi (s.half (slope s.mid)) := by
  rw [Halving.half]
  split_ifs
  · exact ⟨h.lo_le.trans h.left_le_mid, h.mid_le_right, h.le_hi, rfl, middle_real _ _⟩
  · exact ⟨h.lo_le, h.left_le_mid, h.mid_le_right.trans h.le_hi, h.leftSlope_eq, middle_real _ _⟩

/-! ### The slope -/

/-- A strictly convex function with its slope and its minimum. -/
structure Valley (g slope : ℝ → ℝ) (m : ℝ) : Prop where
  /-- It is strictly convex. -/
  convex : StrictConvexOn ℝ Set.univ g
  /-- Its slope. -/
  hasDerivAt : ∀ t, HasDerivAt g (slope t) t
  /-- Its minimum. -/
  minimum : ∀ t, g m ≤ g t

theorem Valley.unimodal (h : Valley g slope m) : Unimodal g m :=
  unimodal_of_strictConvexOn h.convex h.minimum

/-- At the minimum the slope vanishes. -/
theorem Valley.slope_minimum (h : Valley g slope m) : slope m = 0 := by
  have hmin : IsLocalMin g m := (isMinOn_univ_iff.mpr h.minimum).isLocalMin Filter.univ_mem
  exact hmin.hasDerivAt_eq_zero (h.hasDerivAt m)

/-- **The slope is positive after the minimum, and only there.** -/
theorem Valley.slope_pos_iff (h : Valley g slope m) {t : ℝ} : 0 < slope t ↔ m < t := by
  have htangent := tangent_le h.convex.convexOn (h.hasDerivAt t) m
  constructor
  · intro hpos
    have hdown : slope t * (m - t) ≤ 0 := by linarith [h.minimum t]
    have hle : m ≤ t := sub_nonpos.mp (nonpos_of_mul_nonpos_right hdown hpos)
    refine lt_of_le_of_ne hle ?_
    rintro rfl
    exact hpos.ne' h.slope_minimum
  · intro hlt
    have hlow : g m < g t := h.unimodal.rises Set.self_mem_Ici hlt.le hlt
    have hdown : slope t * (m - t) < 0 := by linarith
    exact pos_of_mul_neg_left hdown (sub_nonpos.mpr hlt.le)

/-- Where the slope is small, the function is not far above its values nearby. -/
theorem Valley.le_of_flat (h : Valley g slope m) {t y width : ℝ} (hflat : |slope t| < epsilon)
    (hnear : |y - t| ≤ width) : g t ≤ g y + epsilon * width := by
  have htangent := tangent_le h.convex.convexOn (h.hasDerivAt t) y
  have hdrop : -(slope t * (y - t)) ≤ |slope t| * |y - t| := by
    rw [← abs_mul]
    exact neg_le_abs _
  have hsmall : |slope t| * |y - t| ≤ epsilon * width :=
    mul_le_mul hflat.le hnear (abs_nonneg _) ((abs_nonneg _).trans hflat.le)
  linarith

/-- The interval begins at or before the minimum, and one of its ends is not above a level. -/
structure Sloping (g : ℝ → ℝ) (m c : ℝ) (s : Halving ℝ) : Prop where
  /-- It begins at or before the minimum. -/
  left_le : s.left ≤ m
  /-- One of its ends is not above the level. -/
  ends : g s.left ≤ c ∨ g s.right ≤ c

/-- **A round leaves a half that begins at or before the minimum, and of which one end is not
above the level.** -/
theorem Sloping.half (h : Sloping g m c s) (hvalley : Valley g slope m)
    (hwithin : Within slope lo hi s) : Sloping g m c (s.half (slope s.mid)) := by
  have hleft : ¬0 < slope s.left := by
    rw [hvalley.slope_pos_iff, not_lt]
    exact h.left_le
  have hfalls := hvalley.unimodal.falls.antitoneOn
  have hrises := hvalley.unimodal.rises.monotoneOn
  rw [Halving.half, Halving.sameSide, hwithin.leftSlope_eq]
  by_cases hpos : 0 < slope s.mid
  · have hmid : m ≤ s.mid := (hvalley.slope_pos_iff.mp hpos).le
    simp only [Scalar.ofNat_real, Nat.cast_zero, hpos, hleft]
    refine ⟨h.left_le, h.ends.imp id fun hright => ?_⟩
    exact (hrises hmid (hmid.trans hwithin.mid_le_right) hwithin.mid_le_right).trans hright
  · have hmid : s.mid ≤ m := not_lt.mp (mt hvalley.slope_pos_iff.mpr hpos)
    simp only [Scalar.ofNat_real, Nat.cast_zero, hpos, hleft]
    refine ⟨hmid, h.ends.imp (fun hend => ?_) id⟩
    exact (hfalls h.left_le hmid hwithin.left_le_mid).trans hend

/-- **A bisection ends near a point that is not above the level, or with a small value, or not
far above the level.** -/
theorem Sloping.near (h : Sloping g m c s) (hvalley : Valley g slope m)
    (hwithin : Within slope lo hi s) {hit : Hit ℝ}
    (hround : Cut (fun t => .ok (g t)) epsilon tol iter s (slope s.mid) (.done hit)) :
    (∃ y, |hit.t - y| ≤ tol ∧ g y ≤ c) ∨ |g hit.t| < epsilon ∨
      g hit.t ≤ c + epsilon * (hi - lo) := by
  have hleft := hwithin.left_le_mid
  have hright := hwithin.mid_le_right
  cases hround with
  | narrow hnarrow =>
    refine .inl ?_
    rcases h.ends with hend | hend
    · refine ⟨s.left, ?_, hend⟩
      rw [abs_of_nonneg (sub_nonneg.mpr hleft)]
      linarith
    · refine ⟨s.right, ?_, hend⟩
      rw [abs_sub_comm, abs_of_nonneg (sub_nonneg.mpr hright)]
      linarith
  | small hwide hvalue hsmall =>
    cases hvalue
    rcases hsmall with hsmall | hsmall
    · exact .inr (.inl hsmall)
    · refine .inr (.inr ?_)
      have hlo := hwithin.lo_le
      have hhi := hwithin.le_hi
      rcases h.ends with hend | hend
      · have hnear : |s.left - s.mid| ≤ hi - lo := by
          rw [abs_sub_comm, abs_of_nonneg (sub_nonneg.mpr hleft)]
          linarith
        exact (hvalley.le_of_flat hsmall hnear).trans (by gcongr)
      · have hnear : |s.right - s.mid| ≤ hi - lo := by
          rw [abs_of_nonneg (sub_nonneg.mpr hright)]
          linarith
        exact (hvalley.le_of_flat hsmall hnear).trans (by gcongr)

/-! ### The whole search -/

section Search

variable {b : Bracket ℝ} {delta : ℝ} {cap : ℕ} {hit : Hit ℝ}

/-- The interval after a round is a half of the one before. -/
theorem eq_half_of_next
    (h : s.next (fun t => .ok (g t)) (fun t => .ok (slope t)) epsilon tol iter =
      .ok (.again s')) : s' = s.half (slope s.mid) := by
  obtain ⟨midSlope, hslope, hcut⟩ := cut_iff.mpr h
  cases hslope
  cases hcut
  rfl

/-- The intervals of a bisection stay within the one it starts with. -/
theorem within_reached (hb : b.low ≤ b.high) {n : ℕ}
    (h : rounds (fun iter (s : Halving ℝ) => .orFail (s.next (fun t => .ok (g t))
      (fun t => .ok (slope t)) epsilon tol iter)) n 0
        ⟨b.low, b.high, slope b.low, Halving.middle b.low b.high⟩ = .again s) :
    Within slope b.low b.high s := by
  refine rounds_invariant ⟨le_rfl, hb, le_rfl, rfl, middle_real _ _⟩
    (fun iter s s' hs hround => ?_) h
  rw [eq_half_of_next (orFail_eq_again.mp hround)]
  exact hs.half

/-- A bisection ends between the ends of its interval. -/
theorem Halving.search_mem (hb : b.low ≤ b.high)
    (h : Halving.search (fun t => .ok (g t)) (fun t => .ok (slope t)) epsilon delta cap b =
      .ok (some hit)) : b.low ≤ hit.t ∧ hit.t ≤ b.high := by
  obtain ⟨leftSlope, hslope, n, -, mid, hmid, hlast⟩ := Halving.search_eq_some h
  cases hslope
  have hwithin := within_reached hb hmid
  have hle := hwithin.lo_le.trans hwithin.left_le_mid
  have hge := hwithin.mid_le_right.trans hwithin.le_hi
  obtain ⟨midSlope, hslope, hcut⟩ := cut_iff.mpr hlast
  cases hcut
  · exact ⟨hle, hge⟩
  · exact ⟨hle, hge⟩

/-- **A bisection of an interval that begins at or before the minimum and has an end not above
a level** ends near such a point, or with a small value, or not far above the level. -/
theorem Halving.search_near (hvalley : Valley g slope m) (hb : b.low ≤ b.high) (hlow : b.low ≤ m)
    (hends : g b.low ≤ c ∨ g b.high ≤ c)
    (h : Halving.search (fun t => .ok (g t)) (fun t => .ok (slope t)) epsilon delta cap b =
      .ok (some hit)) :
    (∃ y, |hit.t - y| ≤ tolerance delta (b.high - b.low) ∧ g y ≤ c) ∨ |g hit.t| < epsilon ∨
      g hit.t ≤ c + epsilon * (b.high - b.low) := by
  obtain ⟨leftSlope, hslope, n, -, mid, hmid, hlast⟩ := Halving.search_eq_some h
  cases hslope
  have hkept : Within slope b.low b.high mid ∧ Sloping g m c mid := by
    refine rounds_invariant (P := fun s => Within slope b.low b.high s ∧ Sloping g m c s)
      ⟨⟨le_rfl, hb, le_rfl, rfl, middle_real _ _⟩, hlow, hends⟩ (fun iter s s' hs hround => ?_) hmid
    rw [eq_half_of_next (orFail_eq_again.mp hround)]
    exact ⟨hs.1.half, hs.2.half hvalley hs.1⟩
  obtain ⟨midSlope, hslope, hcut⟩ := cut_iff.mpr hlast
  cases hslope
  exact hkept.2.near hvalley hkept.1 hcut

end Search

end Stepwise.Descent
