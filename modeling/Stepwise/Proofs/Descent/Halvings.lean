import Stepwise.Proofs.Descent.Bisection
import Stepwise.Proofs.Descent.Landings

/-!
# The intervals of a bisection

Like an interval reduction, a bisection goes from interval to interval. Which of them it has
reached after a number of rounds is a relation of its own (`Stepwise.Descent.Halving.Reached`): a
bracket and the slope at its lower end determine the first one, each round the next
(`Stepwise.Descent.Halving.reached_succ`), and the search ends in the round that makes an answer
of the last (`Stepwise.Descent.Halving.search_eq_some_iff`).

What the intervals have in common does not depend on the function, nor on whether the slopes are
slopes of that function (`Stepwise.Descent.Bisecting`). Each is one half of the one before, so
their widths are known beforehand, and with them a round by which the search has ended
(`Stepwise.Descent.Halving.exists_done`). Which half is kept depends on two slopes, that in the
middle and that at the lower end, and of these only on whether they are positive: if exactly one
end has a positive slope, then so it is with the half, whether or not there are slopes that vanish.
-/

namespace Stepwise.Descent

namespace Halving

section Intervals

variable {R : Type} [Scalar R]
variable (φ slope : R → Except Fault R) (epsilon delta : R) (b : Bracket R)

/-- The bisection of a bracket comes to an interval after `n` rounds. -/
def Reached (n : Nat) (s : Halving R) : Prop :=
  ∃ leftSlope, slope b.low = .ok leftSlope ∧
    rounds (fun iter (s : Halving R) => .orFail (s.next φ slope epsilon
      (tolerance delta (b.high - b.low)) iter)) n 0
      ⟨b.low, b.high, leftSlope, middle b.low b.high⟩ = .again s

variable {φ slope epsilon delta b} {n : Nat} {s s' : Halving R}

theorem reached_zero :
    Reached φ slope epsilon delta b 0 s ↔ ∃ leftSlope, slope b.low = .ok leftSlope ∧
      s = ⟨b.low, b.high, leftSlope, middle b.low b.high⟩ := by
  simp [Reached, eq_comm]

/-- **Each interval but the first comes from the one before by a round.** -/
theorem reached_succ :
    Reached φ slope epsilon delta b (n + 1) s' ↔ ∃ s, Reached φ slope epsilon delta b n s ∧
      s.next φ slope epsilon (tolerance delta (b.high - b.low)) n = .ok (.again s') := by
  simp only [Reached, rounds_succ_eq_again, Nat.zero_add, orFail_eq_again]
  constructor
  · rintro ⟨leftSlope, hslope, s, hs, hround⟩
    exact ⟨s, ⟨leftSlope, hslope, hs⟩, hround⟩
  · rintro ⟨s, ⟨leftSlope, hslope, hs⟩, hround⟩
    exact ⟨leftSlope, hslope, s, hs, hround⟩

/-- There is one interval after every number of rounds. -/
theorem Reached.unique (h : Reached φ slope epsilon delta b n s)
    (h' : Reached φ slope epsilon delta b n s') : s = s' := by
  obtain ⟨leftSlope, hslope, hs⟩ := h
  obtain ⟨leftSlope', hslope', hs'⟩ := h'
  cases hslope.symm.trans hslope'
  cases hs.symm.trans hs'
  rfl

/-- **A bisection finds its answer in the round that makes one of the interval reached.** -/
theorem search_eq_some_iff {cap : Nat} {hit : Hit R} :
    search φ slope epsilon delta cap b = .ok (some hit) ↔
      ∃ n < cap, ∃ s, Reached φ slope epsilon delta b n s ∧
        s.next φ slope epsilon (tolerance delta (b.high - b.low)) n = .ok (.done hit) := by
  constructor
  · intro h
    obtain ⟨leftSlope, hslope, n, hn, s, hs, hdone⟩ := search_eq_some h
    rw [Nat.zero_add] at hdone
    exact ⟨n, hn, s, ⟨leftSlope, hslope, hs⟩, hdone⟩
  · rintro ⟨n, hn, s, ⟨leftSlope, hslope, hs⟩, hdone⟩
    have hrounds := rounds_orFail_eq_done_ok.mpr ⟨n, hn, s, hs, by rwa [Nat.zero_add]⟩
    rw [search, hslope, ok_bind]
    dsimp only
    rw [hrounds]
    rfl

end Intervals

end Halving

open Halving

section LineSearches

variable {R : Type} [Scalar R] {f : Oracle R} {s : Settings R} {x p : Vec R}

/-- **Where a line search by bisection lands**: where the round that ends the bisection says, on
the ray. -/
theorem bisection_eq_ok (h : s.search = .bisection) {landing : Landing R} :
    lineSearch f s x p = .ok landing ↔ ∃ ray b n mid hit point,
      Ray.ofDirection x p = .ok ray ∧ ray.bracket f s = .ok b ∧ n < s.maxIters ∧
      Reached (ray.value f) (ray.slope f) s.epsilon s.delta b n mid ∧
      mid.next (ray.value f) (ray.slope f) s.epsilon (tolerance s.delta (b.high - b.low)) n =
        .ok (.done hit) ∧
      ray.point hit.t = .ok point ∧ landing = ⟨point, some hit⟩ := by
  have hbisect (ray : Ray R) (hit : Hit R) : Ray.bisect f s ray = .ok (some hit) ↔
      ∃ b, ray.bracket f s = .ok b ∧ Halving.search (ray.value f) (ray.slope f) s.epsilon s.delta
        s.maxIters b = .ok (some hit) := by
    simp only [Ray.bisect, lift_eq_ofFault, bind_eq_ok, Failure.ofFault_eq_ok]
  simp only [lineSearch, h, landAlong_eq_ok, hbisect, Halving.search_eq_some_iff]
  constructor
  · rintro ⟨ray, hit, point, hray, ⟨b, hb, n, hn, mid, hmid, hdone⟩, hpoint, hlanding⟩
    exact ⟨ray, b, n, mid, hit, point, hray, hb, hn, hmid, hdone, hpoint, hlanding⟩
  · rintro ⟨ray, b, n, mid, hit, point, hray, hb, hn, hmid, hdone, hpoint, hlanding⟩
    exact ⟨ray, hit, point, hray, ⟨b, hb, n, hn, mid, hmid, hdone⟩, hpoint, hlanding⟩

end LineSearches

/-! ### What one half keeps -/

variable {g σ : ℝ → ℝ} {epsilon delta tol lo hi : ℝ} {b : Bracket ℝ} {n iter : ℕ}
  {s s' : Halving ℝ}

/-- In exact arithmetic two slopes are on the same side if both are positive or neither is. -/
theorem sameSide_iff {a c : ℝ} : sameSide a c = true ↔ (0 < a ↔ 0 < c) := by
  simp [sameSide]

/-- A half is the upper half, if the slope in the middle is on the same side as that at the lower
end, or the lower half. -/
theorem half_cases (midSlope : ℝ) (s : Halving ℝ) :
    ((0 < midSlope ↔ 0 < s.leftSlope) ∧
      s.half midSlope = ⟨s.mid, s.right, midSlope, middle s.mid s.right⟩) ∨
    (¬(0 < midSlope ↔ 0 < s.leftSlope) ∧
      s.half midSlope = ⟨s.left, s.mid, s.leftSlope, middle s.left s.mid⟩) := by
  rw [Halving.half, ← sameSide_iff]
  split_ifs with hside
  · exact .inl ⟨hside, rfl⟩
  · exact .inr ⟨hside, rfl⟩

/-- **A half is half as wide, and lies inside.** -/
theorem Within.half_width (h : Within σ lo hi s) :
    (s.half (σ s.mid)).right - (s.half (σ s.mid)).left = (s.right - s.left) / 2 ∧
      s.left ≤ (s.half (σ s.mid)).left ∧ (s.half (σ s.mid)).right ≤ s.right := by
  rcases half_cases (σ s.mid) s with ⟨-, hhalf⟩ | ⟨-, hhalf⟩
  · rw [hhalf]
    refine ⟨?_, h.left_le_mid, le_rfl⟩
    rw [h.mid_eq]
    ring
  · rw [hhalf]
    refine ⟨?_, le_rfl, h.mid_le_right⟩
    rw [h.mid_eq]
    ring

/-- **If exactly one end has a positive slope, so it is with the half.** -/
theorem Within.half_opposite (h : Within σ lo hi s) (hs : Xor (0 < σ s.left) (0 < σ s.right)) :
    Xor (0 < σ (s.half (σ s.mid)).left) (0 < σ (s.half (σ s.mid)).right) := by
  rw [xor_iff_not_iff] at hs ⊢
  rcases half_cases (σ s.mid) s with ⟨hside, hhalf⟩ | ⟨hside, hhalf⟩
  · rw [h.leftSlope_eq] at hside
    rwa [hhalf, hside]
  · rw [h.leftSlope_eq] at hside
    rw [hhalf]
    exact fun hsame => hside hsame.symm

/-! ### All rounds -/

theorem Halving.Reached.within (hb : b.low ≤ b.high)
    (h : Reached (fun t => .ok (g t)) (fun t => .ok (σ t)) epsilon delta b n s) :
    Within σ b.low b.high s := by
  obtain ⟨leftSlope, hslope, hs⟩ := h
  cases hslope
  exact within_reached hb hs

/-- Each interval but the first is a half of the one before. -/
theorem Halving.Reached.exists_half
    (h : Reached (fun t => .ok (g t)) (fun t => .ok (σ t)) epsilon delta b (n + 1) s') :
    ∃ s, Reached (fun t => .ok (g t)) (fun t => .ok (σ t)) epsilon delta b n s ∧
      s' = s.half (σ s.mid) := by
  obtain ⟨s, hs, hround⟩ := reached_succ.mp h
  exact ⟨s, hs, eq_half_of_next hround⟩

/-- What is true of the ends of the bracket, and of those of a half if it is true of those of the
whole, is true of the ends of every interval. -/
theorem Halving.Reached.ends {P : ℝ → ℝ → Prop} (hb : b.low ≤ b.high) (hfirst : P b.low b.high)
    (hhalf : ∀ s, Within σ b.low b.high s → P s.left s.right →
      P (s.half (σ s.mid)).left (s.half (σ s.mid)).right)
    (h : Reached (fun t => .ok (g t)) (fun t => .ok (σ t)) epsilon delta b n s) :
    P s.left s.right := by
  induction n generalizing s with
  | zero =>
    obtain ⟨leftSlope, -, rfl⟩ := reached_zero.mp h
    exact hfirst
  | succ n ih =>
    obtain ⟨before, hbefore, rfl⟩ := h.exists_half
    exact hhalf before (hbefore.within hb) (ih hbefore)

/-- **Every round halves the width.** -/
theorem Halving.Reached.width_eq (hb : b.low ≤ b.high)
    (h : Reached (fun t => .ok (g t)) (fun t => .ok (σ t)) epsilon delta b n s) :
    s.right - s.left = (b.high - b.low) / 2 ^ n := by
  induction n generalizing s with
  | zero =>
    obtain ⟨leftSlope, -, rfl⟩ := reached_zero.mp h
    simp
  | succ n ih =>
    obtain ⟨before, hbefore, rfl⟩ := h.exists_half
    rw [(hbefore.within hb).half_width.1, ih hbefore, pow_succ, div_div]

/-- **Every interval lies inside all earlier ones.** -/
theorem Halving.Reached.nested (hb : b.low ≤ b.high) {m : ℕ} (hle : m ≤ n)
    (h : Reached (fun t => .ok (g t)) (fun t => .ok (σ t)) epsilon delta b m s)
    (h' : Reached (fun t => .ok (g t)) (fun t => .ok (σ t)) epsilon delta b n s') :
    s.left ≤ s'.left ∧ s'.right ≤ s.right := by
  induction n, hle using Nat.le_induction generalizing s' with
  | base =>
    cases h.unique h'
    exact ⟨le_rfl, le_rfl⟩
  | succ n hle ih =>
    obtain ⟨before, hbefore, rfl⟩ := h'.exists_half
    obtain ⟨hleft, hright⟩ := ih hbefore
    obtain ⟨-, hleft', hright'⟩ := (hbefore.within hb).half_width
    exact ⟨hleft.trans hleft', hright'.trans hright⟩

/-- The intervals that a bisection of a bracket with the slope `σ` reaches. -/
structure Bisecting (σ : ℝ → ℝ) (b : Bracket ℝ) (reached : ℕ → Halving ℝ → Prop) : Prop where
  /-- The first interval is the bracket. -/
  first : ∀ s, reached 0 s → s.left = b.low ∧ s.right = b.high
  /-- Every round halves the width. -/
  width : ∀ n s, reached n s → s.right - s.left = (b.high - b.low) / 2 ^ n
  /-- Every interval lies inside all earlier ones. -/
  nested : ∀ m n s s', m ≤ n → reached m s → reached n s' → s.left ≤ s'.left ∧ s'.right ≤ s.right
  /-- The middle is in the middle. -/
  centre : ∀ n s, reached n s → s.mid = (s.left + s.right) / 2
  /-- The slope at the lower end is known. -/
  leftSlope : ∀ n s, reached n s → s.leftSlope = σ s.left
  /-- If exactly one end of the bracket has a positive slope, so it is with every interval. -/
  opposite : Xor (0 < σ b.low) (0 < σ b.high) →
    ∀ n s, reached n s → Xor (0 < σ s.left) (0 < σ s.right)

theorem Halving.bisecting (g σ : ℝ → ℝ) (epsilon delta : ℝ) (hb : b.low ≤ b.high) :
    Bisecting σ b (Reached (fun t => .ok (g t)) (fun t => .ok (σ t)) epsilon delta b) where
  first s hs := by
    obtain ⟨leftSlope, -, rfl⟩ := reached_zero.mp hs
    exact ⟨rfl, rfl⟩
  width n s hs := hs.width_eq hb
  nested m n s s' hle hs hs' := hs.nested hb hle hs'
  centre n s hs := (hs.within hb).mid_eq
  leftSlope n s hs := (hs.within hb).leftSlope_eq
  opposite hxor n s hs := by
    refine hs.ends (P := fun left right => Xor (0 < σ left) (0 < σ right)) hb hxor ?_
    exact fun s hs hends => hs.half_opposite hends

/-! ### The end of a bisection -/

/-- What ends a bisection. -/
theorem cut_done_iff {hit : Hit ℝ} :
    s.next (fun t => .ok (g t)) (fun t => .ok (σ t)) epsilon tol iter = .ok (.done hit) ↔
      hit = ⟨iter, s.mid⟩ ∧
        (s.right - s.left < tol ∨ |g s.mid| < epsilon ∨ |σ s.mid| < epsilon) := by
  rw [← cut_iff]
  constructor
  · rintro ⟨midSlope, hslope, hcut⟩
    cases hslope
    cases hcut with
    | narrow hnarrow => exact ⟨rfl, .inl hnarrow⟩
    | small hwide hvalue hsmall =>
      cases hvalue
      exact ⟨rfl, .inr hsmall⟩
  · rintro ⟨rfl, hends⟩
    refine ⟨_, rfl, ?_⟩
    by_cases hnarrow : s.right - s.left < tol
    · exact .narrow hnarrow
    · exact .small hnarrow rfl (hends.resolve_left hnarrow)

/-- A bisection goes on until a round ends it. -/
theorem Halving.reached_or_done (g σ : ℝ → ℝ) (epsilon delta : ℝ) (b : Bracket ℝ) (n : ℕ) :
    (∃ s, Reached (fun t => .ok (g t)) (fun t => .ok (σ t)) epsilon delta b n s) ∨
      ∃ k < n, ∃ s, Reached (fun t => .ok (g t)) (fun t => .ok (σ t)) epsilon delta b k s ∧
        s.next (fun t => .ok (g t)) (fun t => .ok (σ t)) epsilon
          (tolerance delta (b.high - b.low)) k = .ok (.done ⟨k, s.mid⟩) := by
  induction n with
  | zero => exact .inl ⟨_, reached_zero.mpr ⟨_, rfl, rfl⟩⟩
  | succ n ih =>
    rcases ih with ⟨s, hs⟩ | ⟨k, hk, hdone⟩
    · by_cases hends : s.right - s.left < tolerance delta (b.high - b.low) ∨
          |g s.mid| < epsilon ∨ |σ s.mid| < epsilon
      · exact .inr ⟨n, by omega, s, hs, cut_done_iff.mpr ⟨rfl, hends⟩⟩
      · simp only [not_or] at hends
        exact .inl ⟨_, reached_succ.mpr ⟨s, hs, cut_iff.mp
          ⟨_, rfl, .half hends.1 rfl hends.2⟩⟩⟩
    · exact .inr ⟨k, by omega, hdone⟩

/-- **A bisection ends as soon as the width is below the tolerance.** -/
theorem Halving.exists_done (g σ : ℝ → ℝ) (epsilon : ℝ) (hb : b.low ≤ b.high)
    (hn : (b.high - b.low) / 2 ^ n < tolerance delta (b.high - b.low)) :
    ∃ k ≤ n, ∃ s, Reached (fun t => .ok (g t)) (fun t => .ok (σ t)) epsilon delta b k s ∧
      s.next (fun t => .ok (g t)) (fun t => .ok (σ t)) epsilon
        (tolerance delta (b.high - b.low)) k = .ok (.done ⟨k, s.mid⟩) := by
  rcases Halving.reached_or_done g σ epsilon delta b n with ⟨s, hs⟩ | ⟨k, hk, hdone⟩
  · refine ⟨n, le_rfl, s, hs, cut_done_iff.mpr ⟨rfl, .inl ?_⟩⟩
    rwa [hs.width_eq hb]
  · exact ⟨k, hk.le, hdone⟩

end Stepwise.Descent
