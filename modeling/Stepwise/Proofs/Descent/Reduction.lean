import Mathlib.Tactic.FieldSimp
import Mathlib.Tactic.Linarith
import Mathlib.Tactic.NormNum
import Mathlib.Tactic.Ring
import Mathlib.Tactic.SplitIfs
import Stepwise.Descent.Reduction
import Stepwise.Proofs.Rounds
import Stepwise.Proofs.Descent.Slices

/-!
# How good the point is that an interval reduction finds

A round of a reduction comes to four things: the interval loses a part on its left or on
its right, or what is left of it is narrow enough and the better point is the answer.
They are the constructors of `Stepwise.Descent.Shrink`.

In exact arithmetic a round always keeps the two points inside the interval, in order
(`Stepwise.Descent.Ordered`). A level that one end of the interval is not above stays in
sight (`Stepwise.Descent.Prospect`): as long as that end belongs to the interval nothing
has to be said about the two points, and when a round takes the end away, one of the
points is not above the level either, since the function falls up to its minimum and rises
after it. So the answer is not above the level, or it is so near to the end that the
interval counts as a point (`Stepwise.Descent.Reduction.search_near`).

If it is the upper end that is not above the level, the argument needs the two points
apart when the end goes: of two equal points nothing can be told. Both families of rates
keep them apart (`Stepwise.Descent.Spacing`) as long as only the left end moves.
-/

namespace Stepwise.Descent

/-! ### One round -/

section Rounds

variable {R : Type} [Scalar R]

open Scalar Reduction

/-- What a round of an interval reduction comes to. -/
inductive Shrink (φ : R → Except Fault R) (nextRate : R → R) (tol : R) (iter : Nat)
    (s : Reduction R) : Round (Reduction R) (Hit R) → Prop
  /-- The upper point is better, and nothing wide is left below the upper end. -/
  | upper (hless : s.upper.value < s.lower.value) (hnarrow : s.right - s.lower.t < tol) :
      Shrink φ nextRate tol iter s (.done ⟨iter, s.upper.t⟩)
  /-- The upper point is better, and the interval begins at the lower one. -/
  | dropLeft {value : R} (hless : s.upper.value < s.lower.value)
      (hwide : ¬s.right - s.lower.t < tol)
      (hvalue : φ (s.lower.t + s.rate * (s.right - s.lower.t)) = .ok value) :
      Shrink φ nextRate tol iter s (.again (renew nextRate ⟨s.lower.t, s.right, s.upper,
        ⟨s.lower.t + s.rate * (s.right - s.lower.t), value⟩, s.rate⟩))
  /-- The lower point is as good, and nothing wide is left above the lower end. -/
  | lower (hless : ¬s.upper.value < s.lower.value) (hnarrow : s.upper.t - s.left < tol) :
      Shrink φ nextRate tol iter s (.done ⟨iter, s.lower.t⟩)
  /-- The lower point is as good, and the interval ends at the upper one. -/
  | dropRight {value : R} (hless : ¬s.upper.value < s.lower.value)
      (hwide : ¬s.upper.t - s.left < tol)
      (hvalue : φ (s.upper.t + s.rate * (s.left - s.upper.t)) = .ok value) :
      Shrink φ nextRate tol iter s (.again (renew nextRate ⟨s.left, s.upper.t,
        ⟨s.upper.t + s.rate * (s.left - s.upper.t), value⟩, s.lower, s.rate⟩))

/-- **A round comes to one of the four.** -/
theorem shrink_iff {φ : R → Except Fault R} {nextRate : R → R} {tol : R} {iter : Nat}
    {s : Reduction R} {r : Round (Reduction R) (Hit R)} :
    Shrink φ nextRate tol iter s r ↔ s.next φ nextRate tol iter = .ok r := by
  constructor
  · rintro (⟨hless, hnarrow⟩ | ⟨hless, hwide, hvalue⟩ | ⟨hless, hnarrow⟩ | ⟨hless, hwide, hvalue⟩)
    · rw [Reduction.next, if_pos hless, if_pos hnarrow]
    · rw [Reduction.next, if_pos hless, if_neg hwide]
      simp [Reduction.dropLeft, Probe.at, hvalue, pure, Except.pure]
    · rw [Reduction.next, if_neg hless, if_pos hnarrow]
    · rw [Reduction.next, if_neg hless, if_neg hwide]
      simp [Reduction.dropRight, Probe.at, hvalue, pure, Except.pure]
  · intro h
    rw [Reduction.next] at h
    split_ifs at h with hless hnarrow hnarrow
    · cases h
      exact .upper hless hnarrow
    · simp only [Reduction.dropLeft, Probe.at, bind_eq_ok, pure_eq_ok_iff] at h
      obtain ⟨_, ⟨_, ⟨value, hvalue, rfl⟩, rfl⟩, rfl⟩ := h
      exact .dropLeft hless hnarrow hvalue
    · cases h
      exact .lower hless hnarrow
    · simp only [Reduction.dropRight, Probe.at, bind_eq_ok, pure_eq_ok_iff] at h
      obtain ⟨_, ⟨_, ⟨value, hvalue, rfl⟩, rfl⟩, rfl⟩ := h
      exact .dropRight hless hnarrow hvalue

@[simp] theorem renew_left (nextRate : R → R) (s : Reduction R) :
    (s.renew nextRate).left = s.left := by
  rw [Reduction.renew, Reduction.inOrder]
  split_ifs <;> rfl

@[simp] theorem renew_right (nextRate : R → R) (s : Reduction R) :
    (s.renew nextRate).right = s.right := by
  rw [Reduction.renew, Reduction.inOrder]
  split_ifs <;> rfl

/-- A reduction finds its answer in the round that makes one of the interval reached. -/
theorem Reduction.search_eq_some {φ : R → Except Fault R} {rates : Rates R} {delta : R} {cap : Nat}
    {b : Bracket R} {s : Reduction R} {hit : Hit R} (hs : start φ rates.first b = .ok s)
    (h : Reduction.search φ rates delta cap b = .ok (some hit)) :
    ∃ n < cap, ∃ mid, rounds (fun iter s => .orFail (s.next φ rates.next
        (tolerance delta (b.high - b.low)) iter)) n 0 s = .again mid ∧
      mid.next φ rates.next (tolerance delta (b.high - b.low)) (0 + n) = .ok (.done hit) := by
  rw [Reduction.search, hs, ok_bind] at h
  split at h
  · exact nomatch h
  · rename_i found hrounds
    obtain ⟨hit', rfl, heq⟩ := bind_eq_ok.mp h
    cases heq
    exact rounds_orFail_eq_done_ok.mp hrounds

end Rounds

/-! ### Rates -/

/-- What is asked of rates in exact arithmetic: that they place points inside the interval, and
that two points stay apart as long as only the left end moves.

The apartness `S rate a b` is about the next rate and the distances of the two points from
the right end. When the left end moves to the first point, the second point becomes the
first, and the new one is placed at the distance `(1 - rate) * a`. -/
structure Spacing (rates : Rates ℝ) (S : ℝ → ℝ → ℝ → Prop) : Prop where
  /-- The first rate puts the two points in order. -/
  half_le : 1 / 2 ≤ rates.first
  /-- The first rate is not above one. -/
  first_le : rates.first ≤ 1
  /-- The next rate is one as well. -/
  next_mem : ∀ rate, 0 ≤ rate ∧ rate ≤ 1 → 0 ≤ rates.next rate ∧ rates.next rate ≤ 1
  /-- The two points are apart at the start. -/
  start : ∀ w, 0 < w → S rates.first (rates.first * w) ((1 - rates.first) * w)
  /-- Two points that are apart differ. -/
  lt : ∀ rate a b, S rate a b → b < a
  /-- They stay apart. -/
  next : ∀ rate a b, S rate a b → S (rates.next rate) b ((1 - rate) * a)

/-- **The golden rate keeps the points apart**: their distances from the right end shrink, and
by less than the rate allows. -/
theorem spacing_golden :
    Spacing .golden fun rate a b =>
      rate = Rates.golden.first ∧ (1 - rate) * a < b ∧ b < a := by
  have hhalf : 1 / 2 < (Rates.golden.first : ℝ) := by norm_num [Rates.golden]
  have hone : (Rates.golden.first : ℝ) < 1 := by norm_num [Rates.golden]
  constructor
  case half_le => exact hhalf.le
  case first_le => exact hone.le
  case next_mem => exact fun rate hrate => hrate
  case start =>
    refine fun w hw => ⟨rfl, ?_, ?_⟩
    · exact mul_lt_mul_of_pos_left (mul_lt_of_lt_one_left hw hone) (sub_pos.mpr hone)
    · exact mul_lt_mul_of_pos_right (by linarith) hw
  case lt => exact fun rate a b h => h.2.2
  case next =>
    rintro rate a b ⟨rfl, hlow, hhigh⟩
    exact ⟨rfl, mul_lt_mul_of_pos_left hhigh (sub_pos.mpr hone), hlow⟩

/-- **The quotients of Fibonacci numbers keep the points apart**: the next rate is the part
that the greater distance from the right end has in the sum of both. -/
theorem spacing_fibonacci :
    Spacing .fibonacci fun rate a b =>
      (1 / 2 < rate ∧ rate < 1) ∧ 0 < a ∧ a = rate * (a + b) := by
  constructor
  case half_le => norm_num [Rates.fibonacci]
  case first_le => norm_num [Rates.fibonacci]
  case next_mem =>
    rintro rate ⟨hlow, hhigh⟩
    have hpos : 0 < 1 + rate := by linarith
    simp only [Rates.fibonacci, Scalar.ofNat_real, Nat.cast_one]
    exact ⟨by positivity, (div_le_one hpos).mpr (by linarith)⟩
  case start =>
    intro w hw
    simp only [Rates.fibonacci, Scalar.ratio_real, Nat.cast_ofNat]
    exact ⟨by norm_num, by positivity, by ring⟩
  case lt =>
    rintro rate a b ⟨⟨hlow, -⟩, ha, heq⟩
    -- Half the sum would be the mean of the two.
    have hsum : 0 < a + b := (mul_pos_iff_of_pos_left (by linarith)).mp (heq ▸ ha)
    have hhalf : 1 / 2 * (a + b) < rate * (a + b) := mul_lt_mul_of_pos_right hlow hsum
    linarith
  case next =>
    rintro rate a b ⟨⟨hlow, hhigh⟩, ha, heq⟩
    have hpos : 0 < 1 + rate := by linarith
    -- What the rate leaves of the greater distance is its part of the smaller one.
    have hrest : (1 - rate) * a = rate * b := by linarith
    simp only [Rates.fibonacci, Scalar.ofNat_real, Nat.cast_one]
    refine ⟨⟨?_, ?_⟩, ?_, ?_⟩
    · rw [lt_div_iff₀ hpos]
      linarith
    · rw [div_lt_one hpos]
      linarith
    · exact (mul_pos_iff_of_pos_left (by linarith)).mp (hrest ▸ mul_pos (sub_pos.mpr hhigh) ha)
    · rw [hrest]
      field_simp

/-! ### The two points -/

variable {g : ℝ → ℝ} {m c tol : ℝ} {rates : Rates ℝ} {S : ℝ → ℝ → ℝ → Prop} {iter : ℕ}
  {s s' : Reduction ℝ}

/-- The two points of an interval are inside, in order, and known with their values. -/
structure Ordered (g : ℝ → ℝ) (s : Reduction ℝ) : Prop where
  /-- The lower point is inside. -/
  left_le : s.left ≤ s.lower.t
  /-- The points are in order. -/
  le : s.lower.t ≤ s.upper.t
  /-- The upper point is inside. -/
  le_right : s.upper.t ≤ s.right
  /-- The value at the lower point. -/
  lower_value : s.lower.value = g s.lower.t
  /-- The value at the upper point. -/
  upper_value : s.upper.value = g s.upper.t
  /-- The rate places points inside. -/
  rate_mem : 0 ≤ s.rate ∧ s.rate ≤ 1

/-- A part of the way from one end of an interval to the other leads into the interval. -/
theorem place_mem {a b rate : ℝ} (hab : a ≤ b) (hrate : 0 ≤ rate ∧ rate ≤ 1) :
    (a ≤ a + rate * (b - a) ∧ a + rate * (b - a) ≤ b) ∧
      a ≤ b + rate * (a - b) ∧ b + rate * (a - b) ≤ b := by
  have hnonneg : 0 ≤ rate * (b - a) := mul_nonneg hrate.1 (sub_nonneg.mpr hab)
  have hle : rate * (b - a) ≤ b - a := mul_le_of_le_one_left (sub_nonneg.mpr hab) hrate.2
  refine ⟨⟨?_, ?_⟩, ?_, ?_⟩ <;> linarith

/-- Points inside an interval are put in order. -/
theorem Ordered.renew {nextRate : ℝ → ℝ} (hlower : s.left ≤ s.lower.t ∧ s.lower.t ≤ s.right)
    (hupper : s.left ≤ s.upper.t ∧ s.upper.t ≤ s.right) (hlowerValue : s.lower.value = g s.lower.t)
    (hupperValue : s.upper.value = g s.upper.t)
    (hrate : 0 ≤ nextRate s.rate ∧ nextRate s.rate ≤ 1) :
    Ordered g (s.renew nextRate) := by
  rw [Reduction.renew, Reduction.inOrder]
  split_ifs with hlt
  · exact ⟨hupper.1, hlt.le, hlower.2, hupperValue, hlowerValue, hrate⟩
  · exact ⟨hlower.1, not_lt.mp hlt, hupper.2, hlowerValue, hupperValue, hrate⟩

/-- **A round keeps the points inside and in order.** -/
theorem Ordered.next (h : Ordered g s) (hspacing : Spacing rates S)
    (hround : Shrink (fun t => .ok (g t)) rates.next tol iter s (.again s')) :
    Ordered g s' := by
  have hrate := hspacing.next_mem s.rate h.rate_mem
  cases hround with
  | dropLeft hless hwide hvalue =>
    cases hvalue
    exact .renew ⟨h.le, h.le_right⟩ (place_mem (h.le.trans h.le_right) h.rate_mem).1
      h.upper_value rfl hrate
  | dropRight hless hwide hvalue =>
    cases hvalue
    exact .renew (place_mem (h.left_le.trans h.le) h.rate_mem).2 ⟨h.left_le, h.le⟩
      rfl h.lower_value hrate

/-! ### A level that stays in sight -/

/-- Why a reduction will not end far above a level `c`. -/
inductive Prospect (S : ℝ → ℝ → ℝ → Prop) (g : ℝ → ℝ) (c : ℝ) (s : Reduction ℝ) : Prop
  /-- One of the two points is not above it. -/
  | seen (h : g s.lower.t ≤ c ∨ g s.upper.t ≤ c)
  /-- The lower end is not above it. -/
  | left (h : g s.left ≤ c)
  /-- The upper end is not above it, and the two points are apart. -/
  | right (h : g s.right ≤ c) (hspaced : S s.rate (s.right - s.lower.t) (s.right - s.upper.t))

/-- To put the points in order loses none of them. -/
theorem Prospect.renew {nextRate : ℝ → ℝ} (h : g s.lower.t ≤ c ∨ g s.upper.t ≤ c) :
    Prospect S g c (s.renew nextRate) := by
  refine .seen ?_
  rw [Reduction.renew, Reduction.inOrder]
  split_ifs
  · exact h.symm
  · exact h

/-- If the upper point is better, it is not above the level, or the upper end keeps it in sight. -/
theorem Prospect.upper (h : Prospect S g c s) (hordered : Ordered g s) (hg : Unimodal g m)
    (hless : s.upper.value < s.lower.value) :
    g s.upper.t ≤ c ∨ g s.right ≤ c ∧ S s.rate (s.right - s.lower.t) (s.right - s.upper.t) := by
  rw [hordered.lower_value, hordered.upper_value] at hless
  cases h with
  | seen hseen => exact .inl (hseen.elim hless.le.trans id)
  | left hleft =>
    -- Between the lower end and the upper point the function is no higher than at one of them.
    have hmax := hg.le_max hordered.left_le hordered.le
    have hle : g s.lower.t ≤ g s.left := (le_max_iff.mp hmax).resolve_right (not_le.mpr hless)
    exact .inl ((hless.le.trans hle).trans hleft)
  | right hright hspaced => exact .inr ⟨hright, hspaced⟩

/-- If the lower point is as good, it is not above the level, or the lower end keeps it in sight. -/
theorem Prospect.lower (h : Prospect S g c s) (hordered : Ordered g s) (hspacing : Spacing rates S)
    (hg : Unimodal g m) (hless : ¬s.upper.value < s.lower.value) :
    g s.lower.t ≤ c ∨ g s.left ≤ c := by
  rw [hordered.lower_value, hordered.upper_value, not_lt] at hless
  cases h with
  | seen hseen => exact .inl (hseen.elim id hless.trans)
  | left hleft => exact .inr hleft
  | right hright hspaced =>
    -- The points differ, so the function has stopped falling at the upper one.
    have hlt : s.lower.t < s.upper.t := by linarith [hspacing.lt _ _ _ hspaced]
    exact .inl ((hless.trans (hg.le_of_rise hlt hordered.le_right hless)).trans hright)

/-- **A round keeps a level in sight.** -/
theorem Prospect.next (h : Prospect S g c s) (hordered : Ordered g s) (hspacing : Spacing rates S)
    (hg : Unimodal g m)
    (hround : Shrink (fun t => .ok (g t)) rates.next tol iter s (.again s')) :
    Prospect S g c s' := by
  cases hround with
  | dropLeft hless hwide hvalue =>
    rcases h.upper hordered hg hless with hupper | ⟨hright, hspaced⟩
    · exact .renew (.inl hupper)
    · have hnext := hspacing.next _ _ _ hspaced
      have hplaced : s.right - (s.lower.t + s.rate * (s.right - s.lower.t)) =
          (1 - s.rate) * (s.right - s.lower.t) := by ring
      -- The new point lies above the one that stays, so the two need not change places.
      have hlt := hspacing.lt _ _ _ hnext
      rw [← hplaced] at hlt hnext
      rw [Reduction.renew, Reduction.inOrder, if_neg (by simp only; linarith)]
      exact .right hright hnext
  | dropRight hless hwide hvalue =>
    rcases h.lower hordered hspacing hg hless with hlower | hleft
    · exact .renew (.inr hlower)
    · exact .left (by rwa [renew_left])

/-- **A reduction ends near a point that is not above the level**: at such a point, or in an
interval that counts as a point and has such an end. -/
theorem Prospect.near (h : Prospect S g c s) (hordered : Ordered g s) (hspacing : Spacing rates S)
    (hg : Unimodal g m) {hit : Hit ℝ}
    (hround : Shrink (fun t => .ok (g t)) rates.next tol iter s (.done hit)) :
    ∃ y, |hit.t - y| ≤ tol ∧ g y ≤ c := by
  have hleft := hordered.left_le
  have hle := hordered.le
  have hright := hordered.le_right
  cases hround with
  | upper hless hnarrow =>
    rcases h.upper hordered hg hless with hupper | ⟨hend, -⟩
    · exact ⟨s.upper.t, by rw [sub_self, abs_zero]; linarith, hupper⟩
    · refine ⟨s.right, ?_, hend⟩
      rw [abs_sub_comm, abs_of_nonneg (sub_nonneg.mpr hright)]
      linarith
  | lower hless hnarrow =>
    rcases h.lower hordered hspacing hg hless with hlower | hend
    · exact ⟨s.lower.t, by rw [sub_self, abs_zero]; linarith, hlower⟩
    · refine ⟨s.left, ?_, hend⟩
      rw [abs_of_nonneg (sub_nonneg.mpr hleft)]
      linarith

/-! ### The whole search -/

/-- The search starts with two points inside, in order. -/
theorem ordered_start (g : ℝ → ℝ) (hspacing : Spacing rates S) {b : Bracket ℝ}
    (hb : b.low ≤ b.high) :
    ∃ s, Reduction.start (fun t => .ok (g t)) rates.first b = .ok s ∧ Ordered g s ∧
      s.left = b.low ∧ s.right = b.high ∧ s.rate = rates.first ∧
      s.right - s.lower.t = rates.first * (b.high - b.low) ∧
      s.right - s.upper.t = (1 - rates.first) * (b.high - b.low) := by
  refine ⟨⟨b.low, b.high, ⟨b.high + rates.first * (b.low - b.high), _⟩,
    ⟨b.low + rates.first * (b.high - b.low), _⟩, rates.first⟩, rfl, ?_, rfl, rfl, rfl, ?_, ?_⟩
  · have hhalf := hspacing.half_le
    have hrate : 0 ≤ rates.first ∧ rates.first ≤ 1 := ⟨by linarith, hspacing.first_le⟩
    have hplace := place_mem hb hrate
    refine ⟨hplace.2.1, ?_, hplace.1.2, rfl, rfl, hrate⟩
    have hnonneg : 0 ≤ (2 * rates.first - 1) * (b.high - b.low) :=
      mul_nonneg (by linarith) (sub_nonneg.mpr hb)
    linarith
  · ring
  · ring

/-- **A reduction of an interval that has an end not above a level ends near a point that is
not above it.** -/
theorem Reduction.search_near (hspacing : Spacing rates S) (hg : Unimodal g m) {b : Bracket ℝ}
    (hb : b.low ≤ b.high) (hends : g b.low ≤ c ∨ b.low < b.high ∧ g b.high ≤ c) {delta : ℝ}
    {cap : ℕ} {hit : Hit ℝ}
    (h : Reduction.search (fun t => .ok (g t)) rates delta cap b = .ok (some hit)) :
    ∃ y, |hit.t - y| ≤ tolerance delta (b.high - b.low) ∧ g y ≤ c := by
  obtain ⟨s, hs, hordered, hleft, hright, hrate, hlower, hupper⟩ := ordered_start g hspacing hb
  have hprospect : Prospect S g c s := by
    rcases hends with hend | ⟨hlt, hend⟩
    · exact .left (hleft ▸ hend)
    · refine .right (hright ▸ hend) ?_
      rw [hrate, hlower, hupper]
      exact hspacing.start _ (sub_pos.mpr hlt)
  -- Order and prospect are what every round keeps; the last one makes the answer of them.
  obtain ⟨n, -, mid, hmid, hlast⟩ := Reduction.search_eq_some hs h
  have hkept : Ordered g mid ∧ Prospect S g c mid := by
    refine rounds_invariant (P := fun s => Ordered g s ∧ Prospect S g c s)
      ⟨hordered, hprospect⟩ (fun iter s s' hP hround => ?_) hmid
    have hround := shrink_iff.mpr (orFail_eq_again.mp hround)
    exact ⟨hP.1.next hspacing hround, hP.2.next hP.1 hspacing hg hround⟩
  exact hkept.2.near hkept.1 hspacing hg (shrink_iff.mpr hlast)

end Stepwise.Descent
