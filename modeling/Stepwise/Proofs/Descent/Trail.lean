import Mathlib.Tactic.Linarith
import Mathlib.Tactic.SplitIfs
import Stepwise.Proofs.Descent.Bracket

/-!
# The points that a bracketing search looks at

A bracketing search first loses some steps in rounding and doubles them, then it may turn
round, and from then on it doubles the step as long as it pays. How often it has done each
of these is its trail (`Stepwise.Descent.Trail`), and the trail tells everything else. If
the first step that is not lost is `H`, with the direction in which the search goes on,
then the point reached after `i` steps that pay is `H (2ⁱ - 1)`
(`Stepwise.Descent.Trail.place`): the steps `H`, `2H`, `4H`, … add up to that.

So the state of the search is a function of its trail (`Stepwise.Descent.Trail.advance`).
Every step that does not end the search makes the trail longer by one
(`Stepwise.Descent.Trail.Follows.next`), whichever of the three it is, and the search ends
with the last two points of a trail (`Stepwise.Descent.Traced`). Nothing is asked of the
function for that, and nothing of the settings.
-/

namespace Stepwise.Descent

open Matrix

/-- How often a bracketing search has done what it can do. -/
structure Trail where
  /-- The number of steps lost in rounding. -/
  lost : ℕ
  /-- Whether the search has turned round. -/
  turned : Bool
  /-- The number of steps that have paid. -/
  paid : ℕ

namespace Trail

/-- The number of steps. -/
def size (t : Trail) : ℕ := t.lost + t.turned.toNat + t.paid

/-- The first step that is not lost, before the search turns round. -/
def first (step : ℝ) (t : Trail) : ℝ := (2 ^ t.lost : ℕ) * step

/-- The direction in which the search goes on. -/
def sign (t : Trail) : ℝ := if t.turned then -1 else 1

/-- The point reached after `i` steps that pay. -/
def place (step : ℝ) (t : Trail) (i : ℕ) : ℝ := t.sign * t.first step * ((2 ^ i : ℕ) - 1)

variable {g : ℝ → ℝ} {step : ℝ} {t : Trail}

theorem first_eq (step : ℝ) (t : Trail) : t.first step = 2 ^ t.lost * step := by
  rw [first, Nat.cast_pow, Nat.cast_ofNat]

theorem place_eq (step : ℝ) (t : Trail) (i : ℕ) :
    t.place step i = t.sign * (2 ^ t.lost * step) * (2 ^ i - 1) := by
  rw [place, first_eq, Nat.cast_pow, Nat.cast_ofNat]

@[simp] theorem place_zero (step : ℝ) (t : Trail) : t.place step 0 = 0 := by
  simp [place_eq]

/-- The steps that pay double. -/
theorem place_succ (step : ℝ) (t : Trail) (i : ℕ) :
    t.place step (i + 1) = t.place step i + t.sign * t.first step * (2 ^ i : ℕ) := by
  rw [place, place, pow_succ]
  push_cast
  ring

/-- The state of a search of `g` with such a trail. -/
def advance (g : ℝ → ℝ) (step : ℝ) (t : Trail) : Advance ℝ where
  step := t.sign * t.first step * (2 ^ t.paid : ℕ)
  previous := t.place step (t.paid - 1)
  reached := t.place step t.paid
  best := g (t.place step t.paid)
  fresh := !t.turned && t.paid == 0

/-! ### What the trail says about the function -/

/-- A value that differs from the one at the start by no more than rounding may cause. -/
structure Lost (g : ℝ → ℝ) (t : ℝ) : Prop where
  /-- It is close to the one at the start. -/
  close : |g t - g 0| ≤ 4 * (1 / 2 ^ 52) * |g 0|

theorem lost_iff {t : ℝ} : Lost g t ↔ Scalar.abs (g t - g 0) ≤ slack (g 0) := by
  have hslack : slack (g 0) = 4 * (1 / 2 ^ 52) * |g 0| := by
    norm_num [slack, Scalar.doubleGap]
  rw [hslack]
  exact ⟨Lost.close, Lost.mk⟩

/-- A search of `g` with the given first step has such a trail. -/
structure Follows (g : ℝ → ℝ) (step : ℝ) (t : Trail) : Prop where
  /-- The steps that were lost differ from the start by no more than rounding may cause. -/
  lost : ∀ m < t.lost, Lost g (2 ^ m * step)
  /-- The one after them does, if there was one. -/
  heard : t.turned = true ∨ 0 < t.paid → ¬Lost g (t.first step)
  /-- The search has turned round only if that one did not pay. -/
  turned : t.turned = true → g 0 ≤ g (t.first step)
  /-- Every step that has paid leads to a lower value. -/
  paid : ∀ i < t.paid, g (t.place step (i + 1)) < g (t.place step i)

/-- The search begins with an empty trail. -/
theorem follows_begin (g : ℝ → ℝ) (step : ℝ) :
    Follows g step ⟨0, false, 0⟩ ∧ advance g step ⟨0, false, 0⟩ = .begin step (g 0) := by
  refine ⟨⟨?_, ?_, ?_, ?_⟩, ?_⟩
  · simp
  · simp
  · simp
  · simp
  · simp [advance, Advance.begin, sign, first]

/-- All points of the trail are no worse than the start. -/
theorem Follows.le_start (h : Follows g step t) {i : ℕ} (hi : i ≤ t.paid) :
    g (t.place step i) ≤ g 0 := by
  induction i with
  | zero => rw [place_zero]
  | succ i ih => exact (h.paid i (by omega)).le.trans (ih (by omega))

/-- The next point of the trail, as the step that leads there sees it. -/
theorem reached_add_step (g : ℝ → ℝ) (step : ℝ) (t : Trail) :
    (t.advance g step).reached + (t.advance g step).step = t.place step (t.paid + 1) :=
  (place_succ step t t.paid).symm

/-- A search that has not decided on a direction has only lost steps so far, and the next point is
its first. -/
theorem eq_of_fresh (h : (t.advance g step).fresh = true) :
    ∃ lost, t = ⟨lost, false, 0⟩ ∧
      (t.advance g step).reached + (t.advance g step).step = 2 ^ lost * step := by
  obtain ⟨lost, turned, paid⟩ := t
  obtain ⟨rfl, rfl⟩ : turned = false ∧ paid = 0 := by simpa [advance] using h
  exact ⟨lost, rfl, by simp [advance, sign, first]⟩

theorem heard_of_not_fresh (h : ¬(t.advance g step).fresh = true) :
    t.turned = true ∨ 0 < t.paid := by
  simp only [advance, Bool.and_eq_true, Bool.not_eq_true', beq_iff_eq] at h
  by_contra! hc
  exact h ⟨by simpa using hc.1, by omega⟩

/-! ### One step -/

section Step

variable {lost : ℕ}

/-- A first step that is lost has been lost. -/
theorem Follows.lose (h : Follows g step ⟨lost, false, 0⟩) (hclose : Lost g (2 ^ lost * step)) :
    Follows g step ⟨lost + 1, false, 0⟩ := by
  refine ⟨fun m hm => ?_, by simp, by simp, by simp⟩
  rcases Nat.lt_succ_iff_lt_or_eq.mp hm with hlt | rfl
  · exact h.lost m hlt
  · exact hclose

theorem advance_lose (g : ℝ → ℝ) (step : ℝ) (lost : ℕ) :
    advance g step ⟨lost + 1, false, 0⟩ =
      { advance g step ⟨lost, false, 0⟩ with
        step := (advance g step ⟨lost, false, 0⟩).step * 2 } := by
  simp only [advance, sign, first, pow_succ, Nat.cast_mul, Nat.cast_ofNat, Advance.mk.injEq]
  refine ⟨by ring, ?_, ?_, ?_, trivial⟩
  · simp
  · simp
  · simp

/-- A first step that does not pay makes the search turn round. -/
theorem Follows.turn (h : Follows g step ⟨lost, false, 0⟩) (hheard : ¬Lost g (2 ^ lost * step))
    (hrise : g 0 ≤ g (2 ^ lost * step)) : Follows g step ⟨lost, true, 0⟩ := by
  rw [← first_eq step ⟨lost, true, 0⟩] at hheard hrise
  exact ⟨h.lost, fun _ => hheard, fun _ => hrise, by simp⟩

theorem advance_turn (g : ℝ → ℝ) (step : ℝ) (lost : ℕ) :
    advance g step ⟨lost, true, 0⟩ =
      ⟨-(advance g step ⟨lost, false, 0⟩).step, 0, 0, g 0, false⟩ := by
  simp [advance, sign, first]

/-- A step that pays has paid. -/
theorem Follows.gain (h : Follows g step t)
    (hheard : (t.advance g step).fresh = true → ¬Lost g (t.place step (t.paid + 1)))
    (hless : g (t.place step (t.paid + 1)) < g (t.place step t.paid)) :
    Follows g step { t with paid := t.paid + 1 } := by
  refine ⟨h.lost, fun _ => ?_, h.turned, fun i hi => ?_⟩
  · by_cases hfresh : (t.advance g step).fresh = true
    · obtain ⟨lost, rfl, hfirst⟩ := eq_of_fresh hfresh
      rw [reached_add_step] at hfirst
      rw [first_eq, ← hfirst]
      exact hheard hfresh
    · exact h.heard (heard_of_not_fresh hfresh)
  · rcases Nat.lt_succ_iff_lt_or_eq.mp hi with hlt | rfl
    · exact h.paid i hlt
    · exact hless

theorem advance_gain (g : ℝ → ℝ) (step : ℝ) (t : Trail) :
    advance g step { t with paid := t.paid + 1 } =
      ⟨(t.advance g step).step * 2, t.place step t.paid, t.place step (t.paid + 1),
        g (t.place step (t.paid + 1)), false⟩ := by
  simp only [advance, pow_succ, Nat.cast_mul, Nat.cast_ofNat, Nat.add_sub_cancel,
    Advance.mk.injEq]
  exact ⟨(mul_assoc _ _ _).symm, rfl, rfl, rfl, by simp⟩

end Step

/-- **Every step makes the trail longer by one.** -/
theorem Follows.next (h : Follows g step t) {next : Advance ℝ}
    (hstride : Stride (fun t => .ok (g t)) (g 0) (t.advance g step) (.again next)) :
    ∃ t' : Trail, t'.size = t.size + 1 ∧ Follows g step t' ∧ next = t'.advance g step := by
  cases hstride with
  | lost hvalue hfresh hclose =>
    cases hvalue
    obtain ⟨lost, rfl, hfirst⟩ := eq_of_fresh hfresh
    rw [hfirst] at hclose
    refine ⟨⟨lost + 1, false, 0⟩, by simp [size], h.lose (lost_iff.mpr hclose), ?_⟩
    rw [advance_lose]
    simp [advance]
  | gain hvalue hheard hless =>
    cases hvalue
    rw [reached_add_step] at hheard hless ⊢
    refine ⟨{ t with paid := t.paid + 1 }, by simp [size, Nat.add_assoc],
      h.gain (fun hfresh => mt lost_iff.mp (hheard hfresh)) hless, ?_⟩
    rw [advance_gain]
    simp [advance]
  | turn hvalue hfresh hheard hless =>
    cases hvalue
    obtain ⟨lost, rfl, hfirst⟩ := eq_of_fresh hfresh
    rw [hfirst] at hheard hless
    have hbest : (advance g step ⟨lost, false, 0⟩).best = g 0 := by simp [advance]
    rw [hbest] at hless ⊢
    refine ⟨⟨lost, true, 0⟩, by simp [size],
      h.turn (mt lost_iff.mp hheard) (not_lt.mp hless), ?_⟩
    rw [advance_turn, Scalar.ofNat_real, Nat.cast_zero]

end Trail

/-! ### What the search returns -/

open Trail

/-- What a bracketing search of `g` with the given first step returns after at most `cap` steps. -/
inductive Traced (g : ℝ → ℝ) (step : ℝ) (cap : ℕ) : Bracket ℝ → Prop
  /-- The interval between the last point and one that does not pay. -/
  | closed {t : Trail} (h : t.Follows g step) (hdecided : t.turned = false → 1 ≤ t.paid)
      (hrise : g (t.place step t.paid) ≤ g (t.place step (t.paid + 1))) (hcap : t.size + 1 ≤ cap) :
      Traced g step cap (.between (t.place step t.paid) (t.place step (t.paid + 1)) true)
  /-- The interval between the last two points, after all steps. -/
  | cut {t : Trail} (h : t.Follows g step) {i : ℕ} (hpaid : t.paid = i + 1) (hcap : t.size = cap) :
      Traced g step cap (.between (t.place step i) (t.place step (i + 1)) false)
  /-- The start, after steps of which none has paid. -/
  | stranded {t : Trail} (h : t.Follows g step) (hpaid : t.paid = 0) (hcap : t.size = cap) :
      Traced g step cap ⟨0, 0, false⟩

variable {g : ℝ → ℝ} {step : ℝ} {cap : ℕ}

/-- **After any number of steps the search has a trail of that size.** -/
theorem exists_trail {n : ℕ} {a : Advance ℝ}
    (h : rounds (fun _ a => .orFail (a.next (fun t => .ok (g t)) (g 0))) n 0
      (Advance.begin step (g 0)) = .again a) :
    ∃ t : Trail, t.size = n ∧ t.Follows g step ∧ a = t.advance g step := by
  induction n generalizing a with
  | zero =>
    cases h
    obtain ⟨hfollows, hbegin⟩ := follows_begin g step
    exact ⟨_, rfl, hfollows, hbegin.symm⟩
  | succ n ih =>
    obtain ⟨before, hbefore, hlast⟩ := rounds_succ_eq_again.mp h
    obtain ⟨t, rfl, hfollows, rfl⟩ := ih hbefore
    exact hfollows.next (stride_iff.mpr (orFail_eq_again.mp hlast))

/-- A step that ends the search closes the interval after the last point of the trail. -/
theorem Trail.Follows.traced {t : Trail} (h : t.Follows g step) (hcap : t.size + 1 ≤ cap)
    {b : Bracket ℝ}
    (hstride : Stride (fun t => .ok (g t)) (g 0) (t.advance g step) (.done b)) :
    Traced g step cap b := by
  cases hstride with
  | close hvalue hfresh hless =>
    cases hvalue
    rw [reached_add_step] at hless ⊢
    refine .closed h (fun hturned => ?_) (not_lt.mp hless) hcap
    have hdecided := heard_of_not_fresh (ne_true_of_eq_false hfresh)
    exact hdecided.resolve_left (ne_true_of_eq_false hturned)

/-- A search that has used up its steps returns the last two points of the trail. -/
theorem Trail.Follows.traced_of_cut {t : Trail} (h : t.Follows g step) (hcap : t.size = cap) :
    Traced g step cap
      (.between (t.advance g step).previous (t.advance g step).reached false) := by
  cases hpaid : t.paid with
  | zero =>
    have hstart : Bracket.between (t.advance g step).previous (t.advance g step).reached false =
        ⟨0, 0, false⟩ := by
      simp [advance, hpaid, Bracket.between]
    rw [hstart]
    exact .stranded h hpaid hcap
  | succ i =>
    simp only [advance, hpaid, Nat.add_sub_cancel]
    exact .cut h hpaid hcap

/-- **A bracketing search returns the last two points of its trail.** -/
theorem search_traced (g : ℝ → ℝ) (step : ℝ) (cap : ℕ) :
    ∃ b, Bracket.search (fun t => .ok (g t)) step cap = .ok b ∧ Traced g step cap b := by
  rw [Bracket.search, ok_bind, Scalar.ofNat_real, Nat.cast_zero]
  cases hrounds : rounds (fun _ a => .orFail (a.next (fun t => .ok (g t)) (g 0))) cap 0
      (Advance.begin step (g 0)) with
  | again a =>
    obtain ⟨t, hsize, hfollows, rfl⟩ := exists_trail hrounds
    exact ⟨_, rfl, hfollows.traced_of_cut hsize⟩
  | done answer =>
    obtain ⟨k, hk, a, ha, hdone⟩ := rounds_eq_done.mp hrounds
    obtain ⟨t, rfl, hfollows, rfl⟩ := exists_trail ha
    obtain ⟨r, hr⟩ := (t.advance g step).exists_next g (g 0)
    rw [hr] at hdone
    cases r with
    | again next => cases hdone
    | done b =>
      cases hdone
      exact ⟨b, rfl, hfollows.traced hk (stride_iff.mpr hr)⟩

theorem Traced.low_le_high {b : Bracket ℝ} (h : Traced g step cap b) : b.low ≤ b.high := by
  cases h with
  | closed => exact between_low_le_high _ _ _
  | cut => exact between_low_le_high _ _ _
  | stranded => exact le_rfl

/-- The interval between two points has each of them at one of its ends. -/
theorem between_ends {P : ℝ → Prop} {a : ℝ} (ha : P a) (c : ℝ) (closed : Bool) :
    P (Bracket.between a c closed).low ∨ P (Bracket.between a c closed).high := by
  rw [Bracket.between]
  split_ifs
  · exact .inl ha
  · exact .inr ha

/-- **One end of the interval is no worse than the start.** -/
theorem Traced.ends {b : Bracket ℝ} (h : Traced g step cap b) : g b.low ≤ g 0 ∨ g b.high ≤ g 0 := by
  cases h with
  | closed hfollows =>
    exact between_ends (P := fun t => g t ≤ g 0) (hfollows.le_start le_rfl) _ _
  | cut hfollows hpaid =>
    exact between_ends (P := fun t => g t ≤ g 0) (hfollows.le_start (by omega)) _ _
  | stranded => exact .inl le_rfl

/-! ### The search along a ray -/

variable {n : ℕ} {F : (Fin n → ℝ) → ℝ} {f : Oracle ℝ}

/-- **What a bracketing search does along a ray**: it loses steps, it may turn round, it goes on
while it pays, and it returns the last two of the points that it has come to. -/
theorem bracket_traced (hf : HasValue f F) (s : Settings ℝ) (x p : Fin n → ℝ) :
    ∃ b, (⟨List.ofFn x, List.ofFn p⟩ : Ray ℝ).bracket f s = .ok b ∧
      Traced (slice F x p) s.step s.maxIters b ∧ b.low ≤ b.high ∧
      (slice F x p b.low ≤ slice F x p 0 ∨ slice F x p b.high ≤ slice F x p 0) := by
  rw [Ray.bracket, hf.slice]
  obtain ⟨b, hb, htraced⟩ := search_traced (slice F x p) s.step s.maxIters
  exact ⟨b, hb, htraced, htraced.low_le_high, htraced.ends⟩

/-- The search that goes over the minimum of the square closes the interval from three to seven. -/
theorem bracket_traced_square :
    HasValue (square.complete 1) (fun u : Fin 1 → ℝ => u ⬝ᵥ u) ∧
      Traced (slice (fun u => u ⬝ᵥ u) ![-9 / 4] ![1]) 1 32767 ⟨3, 7, true⟩ := by
  obtain ⟨b, hb, htraced, -⟩ := bracket_traced (square_hasValue 1) unitStep ![-9 / 4] ![1]
  cases bracket_square.symm.trans hb
  exact ⟨square_hasValue 1, htraced⟩

end Stepwise.Descent
