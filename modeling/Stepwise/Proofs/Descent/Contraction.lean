import Stepwise.Proofs.Descent.Enclosure
import Stepwise.Proofs.Descent.Quadratics

/-!
# How fast an interval reduction closes in

A comparison of the two points inside takes away a part of the interval, and what remains
(`Stepwise.Descent.Reduction.remaining`) is the next one. With rates that change, a single round
may take away almost nothing, since the point that is used again can lie almost anywhere.

But the point that was put in last lies in the middle of the interval, three eighths of its
width away from either end at least. This is what every round brings about
(`Stepwise.Descent.Centred`), whatever the values are. So whichever end goes and whichever of the
points is compared next, **after two rounds no more than five eighths are left**
(`Stepwise.Descent.Centred.remaining_next`). Hence the width falls below every tolerance, and the
search ends (`Stepwise.Descent.lineSearch_contracts`).
-/

namespace Stepwise.Descent

open Matrix

/-! ### What a comparison leaves -/

section Remaining

variable {R : Type} [Scalar R]

/-- The width that the comparison of the two points leaves. -/
def Reduction.remaining (s : Reduction R) : R :=
  if s.upper.value < s.lower.value then s.right - s.lower.t else s.upper.t - s.left

variable {φ : R → Except Fault R} {nextRate : R → R} {tol : R} {iter : ℕ} {s s' : Reduction R}

/-- What a comparison leaves is the next interval, unless it is narrow enough. -/
theorem Shrink.remaining_eq (h : Shrink φ nextRate tol iter s (.again s')) :
    s'.right - s'.left = s.remaining ∧ ¬s.remaining < tol := by
  rw [Reduction.remaining]
  cases h with
  | dropLeft hless hwide hvalue =>
    rw [if_pos hless, renew_left, renew_right]
    exact ⟨rfl, hwide⟩
  | dropRight hless hwide hvalue =>
    rw [if_neg hless, renew_left, renew_right]
    exact ⟨rfl, hwide⟩

end Remaining

/-! ### The middle of an interval -/

variable {g : ℝ → ℝ} {rates : Rates ℝ} {S : ℝ → ℝ → ℝ → Prop} {tol delta : ℝ} {iter : ℕ}
  {s s' : Reduction ℝ} {b : Bracket ℝ}

/-- A rate between three fifths and five eighths. -/
def Moderate (rate : ℝ) : Prop := 3 / 5 ≤ rate ∧ rate ≤ 5 / 8

/-- The number lies in the middle of an interval: three eighths of the width away from either end
at least. -/
def Middle (left right t : ℝ) : Prop :=
  3 / 8 * (right - left) ≤ t - left ∧ 3 / 8 * (right - left) ≤ right - t

/-- **A moderate rate leads to the middle**, from either end. -/
theorem Moderate.middle {left right rate : ℝ} (hrate : Moderate rate) (hle : left ≤ right) :
    Middle left right (left + rate * (right - left)) ∧
      Middle left right (right + rate * (left - right)) := by
  have hwidth : 0 ≤ right - left := sub_nonneg.mpr hle
  have hlow : 3 / 8 * (right - left) ≤ rate * (right - left) :=
    mul_le_mul_of_nonneg_right (by linarith [hrate.1]) hwidth
  have hhigh : rate * (right - left) ≤ 5 / 8 * (right - left) :=
    mul_le_mul_of_nonneg_right hrate.2 hwidth
  exact ⟨⟨by linarith, by linarith⟩, ⟨by linarith, by linarith⟩⟩

/-- Both families of rates are moderate from the first rate on. -/
theorem Reduces.moderate {search : LineSearch} (h : Reduces search rates) :
    Moderate rates.first ∧ ∀ rate, Moderate rate → Moderate (rates.next rate) := by
  cases h with
  | goldenSection =>
    refine ⟨?_, fun rate hrate => hrate⟩
    norm_num [Moderate, Rates.golden]
  | fibonacci =>
    refine ⟨by norm_num [Moderate, Rates.fibonacci], ?_⟩
    rintro rate ⟨hlow, hhigh⟩
    have hpos : 0 < 1 + rate := by linarith
    simp only [Moderate, Rates.fibonacci, Scalar.ofNat_real, Nat.cast_one]
    rw [le_div_iff₀ hpos, div_le_iff₀ hpos]
    exact ⟨by linarith, by linarith⟩

/-- One of the two points of the interval lies in its middle, and the next will be put there. -/
structure Centred (s : Reduction ℝ) : Prop where
  /-- The next point will be put there. -/
  rate : Moderate s.rate
  /-- One of the points lies there. -/
  middle : Middle s.left s.right s.lower.t ∨ Middle s.left s.right s.upper.t

/-- To put the points in order moves none of them out of the middle. -/
theorem Centred.renew {nextRate : ℝ → ℝ} (hrate : Moderate (nextRate s.rate))
    (hmiddle : Middle s.left s.right s.lower.t ∨ Middle s.left s.right s.upper.t) :
    Centred (s.renew nextRate) := by
  rw [Reduction.renew, Reduction.inOrder]
  split_ifs
  · exact ⟨hrate, hmiddle.symm⟩
  · exact ⟨hrate, hmiddle⟩

/-- **A round puts a point into the middle.** -/
theorem Centred.next (h : Centred s) (hordered : Ordered g s)
    (hrates : ∀ rate, Moderate rate → Moderate (rates.next rate))
    (hround : Shrink (fun t => .ok (g t)) rates.next tol iter s (.again s')) : Centred s' := by
  cases hround with
  | dropLeft hless hwide hvalue =>
    exact .renew (hrates _ h.rate) (.inr (h.rate.middle (hordered.le.trans hordered.le_right)).1)
  | dropRight hless hwide hvalue =>
    exact .renew (hrates _ h.rate) (.inl (h.rate.middle (hordered.left_le.trans hordered.le)).2)

/-! ### Two rounds -/

/-- What remains is bounded by what lies on either side of either point, in whatever order they
are. -/
theorem remaining_renew_le {nextRate : ℝ → ℝ} {c : ℝ}
    (hlower : s.right - s.lower.t ≤ c ∧ s.lower.t - s.left ≤ c)
    (hupper : s.right - s.upper.t ≤ c ∧ s.upper.t - s.left ≤ c) :
    (s.renew nextRate).remaining ≤ c := by
  rw [Reduction.renew, Reduction.inOrder, Reduction.remaining]
  split_ifs
  · exact hupper.1
  · exact hlower.2
  · exact hlower.1
  · exact hupper.2

/-- **Two rounds leave five eighths at most**: the first of them makes the next interval of one
part, and what remains of that is what the second one leaves. -/
theorem Centred.remaining_next (h : Centred s) (hordered : Ordered g s)
    (hround : Shrink (fun t => .ok (g t)) rates.next tol iter s (.again s')) :
    s'.remaining ≤ 5 / 8 * (s.right - s.left) := by
  have hleft := hordered.left_le
  have hle := hordered.le
  have hright := hordered.le_right
  -- One point is far enough from both ends, so the part between the points is short enough, and
  -- so is the part beyond the point that stays.
  cases hround with
  | dropLeft hless hwide hvalue =>
    obtain ⟨hlow, hhigh⟩ := (h.rate.middle (hle.trans hright)).1
    refine remaining_renew_le ?_ ⟨?_, ?_⟩
    · rcases h.middle with hmid | hmid
      · exact ⟨by linarith [hmid.1, hmid.2], by linarith [hmid.1, hmid.2]⟩
      · exact ⟨by linarith [hmid.1, hmid.2], by linarith [hmid.1, hmid.2]⟩
    · linarith
    · linarith
  | dropRight hless hwide hvalue =>
    obtain ⟨hlow, hhigh⟩ := (h.rate.middle (hleft.trans hle)).2
    refine remaining_renew_le ⟨?_, ?_⟩ ?_
    · linarith
    · linarith
    · rcases h.middle with hmid | hmid
      · exact ⟨by linarith [hmid.1, hmid.2], by linarith [hmid.1, hmid.2]⟩
      · exact ⟨by linarith [hmid.1, hmid.2], by linarith [hmid.1, hmid.2]⟩

/-- What remains is no wider than the interval. -/
theorem Ordered.remaining_le (h : Ordered g s) : s.remaining ≤ s.right - s.left := by
  have hleft := h.left_le
  have hle := h.le
  have hright := h.le_right
  rw [Reduction.remaining]
  split_ifs
  · linarith
  · linarith

/-! ### All rounds -/

open Reduction

/-- What is true of an interval that a reduction of an interval as wide as `w` reaches after `n`
rounds. -/
structure Contracted (g : ℝ → ℝ) (w : ℝ) (n : ℕ) (s : Reduction ℝ) : Prop where
  /-- The points are inside, in order. -/
  ordered : Ordered g s
  /-- One of them lies in the middle. -/
  centred : Centred s
  /-- Every two rounds have left five eighths at most. -/
  width_le : s.right - s.left ≤ (5 / 8) ^ (n / 2) * w
  /-- So will the next one, with the one before. -/
  remaining_le : s.remaining ≤ (5 / 8) ^ ((n + 1) / 2) * w

/-- **What a reduction has come to after `n` rounds.** -/
theorem Reduction.Reached.contracted {search : LineSearch} (hrates : Reduces search rates)
    (hb : b.low ≤ b.high) {n : ℕ} (h : Reached (fun t => .ok (g t)) rates delta b n s) :
    Contracted g (b.high - b.low) n s := by
  obtain ⟨hfirst, hnext⟩ := hrates.moderate
  obtain ⟨S, hspacing⟩ := hrates.exists_spacing
  induction n generalizing s with
  | zero =>
    obtain ⟨start, hstart, hordered, hleft, hright, hrate, hlower, -⟩ :=
      ordered_start g hspacing hb
    cases (reached_zero.mp h).symm.trans hstart
    have hmiddle := (hfirst.middle hb).2
    refine ⟨hordered, ⟨hrate ▸ hfirst, .inl ?_⟩, ?_, ?_⟩
    · rw [hleft, hright, show s.lower.t = b.high + rates.first * (b.low - b.high) by linarith]
      exact hmiddle
    · rw [hleft, hright]
      simp
    · rw [← hleft, ← hright]
      simpa using hordered.remaining_le
  | succ n ih =>
    obtain ⟨before, hbefore, hround⟩ := reached_succ.mp h
    have hkept := ih hbefore
    refine ⟨hkept.ordered.next hspacing hround,
      hkept.centred.next hkept.ordered hnext hround, ?_, ?_⟩
    · rw [hround.remaining_eq.1]
      exact hkept.remaining_le
    · calc s.remaining ≤ 5 / 8 * (before.right - before.left) :=
            hkept.centred.remaining_next hkept.ordered hround
        _ ≤ 5 / 8 * ((5 / 8) ^ (n / 2) * (b.high - b.low)) :=
            mul_le_mul_of_nonneg_left hkept.width_le (by norm_num)
        _ = (5 / 8) ^ ((n + 1 + 1) / 2) * (b.high - b.low) := by
            rw [show (n + 1 + 1) / 2 = n / 2 + 1 by omega, pow_succ]
            ring

/-- A reduction of a function that has a value everywhere goes on until a round ends it. -/
theorem Reduction.reached_or_done (g : ℝ → ℝ) (rates : Rates ℝ) (delta : ℝ) (b : Bracket ℝ)
    (n : ℕ) :
    (∃ s, Reached (fun t => .ok (g t)) rates delta b n s) ∨
      ∃ k < n, ∃ s hit, Reached (fun t => .ok (g t)) rates delta b k s ∧
        Shrink (fun t => .ok (g t)) rates.next (tolerance delta (b.high - b.low)) k s
          (.done hit) := by
  induction n with
  | zero => exact .inl ⟨_, reached_zero.mpr rfl⟩
  | succ n ih =>
    rcases ih with ⟨s, hs⟩ | ⟨k, hk, hdone⟩
    · obtain ⟨r, hr⟩ : ∃ r, s.next (fun t => .ok (g t)) rates.next
          (tolerance delta (b.high - b.low)) n = .ok r := by
        rw [Reduction.next]
        split_ifs <;> exact ⟨_, rfl⟩
      cases r with
      | again next => exact .inl ⟨next, reached_succ.mpr ⟨s, hs, shrink_iff.mpr hr⟩⟩
      | done hit => exact .inr ⟨n, by omega, s, hit, hs, shrink_iff.mpr hr⟩
    · exact .inr ⟨k, by omega, hdone⟩

/-- **A reduction ends as soon as the width is below the tolerance.** -/
theorem Reduction.exists_done {search : LineSearch} (hrates : Reduces search rates)
    (hb : b.low ≤ b.high) {n : ℕ}
    (hn : (5 / 8) ^ ((n + 1) / 2) * (b.high - b.low) < tolerance delta (b.high - b.low)) :
    ∃ k ≤ n, ∃ s hit, Reached (fun t => .ok (g t)) rates delta b k s ∧
      Shrink (fun t => .ok (g t)) rates.next (tolerance delta (b.high - b.low)) k s
        (.done hit) := by
  rcases Reduction.reached_or_done g rates delta b (n + 1) with ⟨s, hs⟩ | ⟨k, hk, hdone⟩
  · obtain ⟨before, hbefore, hround⟩ := reached_succ.mp hs
    have hremaining := (hbefore.contracted hrates hb).remaining_le
    exact absurd (hremaining.trans_lt hn) hround.remaining_eq.2
  · exact ⟨k, by omega, hdone⟩

/-! ### The line searches -/

/-- The intervals of a reduction keep their points inside, lie one within the other, and lose
three eighths of the width at least with every two rounds. -/
structure Contracting (φ : ℝ → Except Fault ℝ) (rates : Rates ℝ) (delta : ℝ) (b : Bracket ℝ) :
    Prop where
  /-- The first interval is the bracket. -/
  first : ∀ s, Reached φ rates delta b 0 s → s.left = b.low ∧ s.right = b.high
  /-- The two points are inside, in order. -/
  inside : ∀ n s, Reached φ rates delta b n s →
    s.left ≤ s.lower.t ∧ s.lower.t ≤ s.upper.t ∧ s.upper.t ≤ s.right
  /-- Each interval lies within the one before. -/
  nested : ∀ n s s', Reached φ rates delta b n s → Reached φ rates delta b (n + 1) s' →
    s.left ≤ s'.left ∧ s'.right ≤ s.right
  /-- Two rounds leave five eighths of the width at most. -/
  contracts : ∀ n s s', Reached φ rates delta b n s → Reached φ rates delta b (n + 2) s' →
    s'.right - s'.left ≤ 5 / 8 * (s.right - s.left)

theorem Reduction.contracting {search : LineSearch} (hrates : Reduces search rates)
    (hb : b.low ≤ b.high) : Contracting (fun t => .ok (g t)) rates delta b where
  first s hs := by
    cases reached_zero.mp hs
    exact ⟨rfl, rfl⟩
  inside n s hs := by
    have hordered := (hs.contracted hrates hb).ordered
    exact ⟨hordered.left_le, hordered.le, hordered.le_right⟩
  nested n s s' hs hs' := by
    have hordered := (hs.contracted hrates hb).ordered
    obtain ⟨before, hbefore, hround⟩ := reached_succ.mp hs'
    cases hbefore.unique hs
    cases hround with
    | dropLeft hless hwide hvalue =>
      rw [renew_left, renew_right]
      exact ⟨hordered.left_le, le_rfl⟩
    | dropRight hless hwide hvalue =>
      rw [renew_left, renew_right]
      exact ⟨le_rfl, hordered.le_right⟩
  contracts n s s' hs hs' := by
    have hkept := hs.contracted hrates hb
    obtain ⟨mid, hmid, hsecond⟩ := reached_succ.mp hs'
    obtain ⟨before, hbefore, hfirst⟩ := reached_succ.mp hmid
    cases hbefore.unique hs
    rw [hsecond.remaining_eq.1]
    exact hkept.centred.remaining_next hkept.ordered hfirst

variable {n : ℕ} {F : (Fin n → ℝ) → ℝ} {f : Oracle ℝ} {settings : Settings ℝ} {x p : Fin n → ℝ}

/-- **Whatever the function is, an interval reduction closes in and ends**: every two rounds leave
five eighths of the width at most, and as soon as that is below the tolerance a point is found. -/
theorem lineSearch_contracts (hrates : Reduces settings.search rates) (hf : HasValue f F)
    (hs : settings.check = .ok ()) (hp : p ≠ 0) :
    ∃ ray b, Ray.ofDirection (List.ofFn x) (List.ofFn p) = .ok ray ∧
      ray.bracket f settings = .ok b ∧ Contracting (ray.value f) rates settings.delta b ∧
      ∀ n < settings.maxIters, (5 / 8) ^ ((n + 1) / 2) * (b.high - b.low) <
          tolerance settings.delta (b.high - b.low) →
        ∃ k ≤ n, ∃ t point, ray.point t = .ok point ∧
          lineSearch f settings (List.ofFn x) (List.ofFn p) = .ok ⟨point, some ⟨k, t⟩⟩ := by
  obtain ⟨b, hb, hbracketed⟩ := bracket_bracketed hf hs x (unit p)
  have hray := ofDirection_ofFn (x := x) (dotProduct_self_pos hp)
  refine ⟨_, b, hray, hb, ?_, fun n hn hsmall => ?_⟩
  · rw [hf.slice]
    exact Reduction.contracting hrates hbracketed.low_le_high
  · obtain ⟨k, hk, s, hit, hreached, hdone⟩ := Reduction.exists_done
      (g := slice F x (unit p)) hrates hbracketed.low_le_high hsmall
    obtain rfl := hdone.iter_eq
    rw [← hf.slice] at hreached hdone
    have hpoint := point_ofFn x (unit p) hit.t
    exact ⟨hit.iter, hk, hit.t, _, hpoint, hrates.lineSearch_eq_ok.mpr
      ⟨_, b, _, s, hit, _, hray, hb, by omega, hreached, hdone, hpoint, rfl⟩⟩

/-- The search over the minimum of the square loses three eighths of the width and more with its
first two rounds, and has ended after the sixth. -/
theorem lineSearch_contracts_narrowing :
    (finer .fibonacci).check = .ok () ∧ (![1] : Fin 1 → ℝ) ≠ 0 ∧
      (narrowing 2).right - (narrowing 2).left ≤
        5 / 8 * ((narrowing 0).right - (narrowing 0).left) ∧
      ∃ k ≤ 5, ∃ t point, lineSearch (square.complete 1) (finer .fibonacci) (List.ofFn ![-3 / 2])
        (List.ofFn ![1]) = .ok ⟨point, some ⟨k, t⟩⟩ := by
  have hp : (![1] : Fin 1 → ℝ) ≠ 0 := by simp
  obtain ⟨ray, b, hray, hb, hcontracting, hends⟩ := lineSearch_contracts (x := ![-3 / 2])
    (Reduces.fibonacci : Reduces (finer .fibonacci).search _) (square_hasValue 1)
    (finer_check .fibonacci) hp
  rw [ofDirection_ofFn (dotProduct_self_pos hp), unit_one] at hray
  cases hray
  cases hb.symm.trans bracket_across
  rw [value_square] at hcontracting
  refine ⟨finer_check .fibonacci, hp, ?_, ?_⟩
  · exact hcontracting.contracts 0 _ _ (reached_narrowing (by decide))
      (reached_narrowing (by decide))
  · obtain ⟨k, hk, t, point, -, hpoint⟩ := hends 5 (by decide) (by
      rw [tolerance_finer]
      norm_num)
    exact ⟨k, hk, t, point, hpoint⟩

end Stepwise.Descent
