import Mathlib.Analysis.Convex.SpecificFunctions.Deriv
import Mathlib.Tactic.Linarith
import Mathlib.Tactic.SplitIfs
import Stepwise.Descent.LineSearch
import Stepwise.Proofs.Rounds
import Stepwise.Proofs.Descent.Account
import Stepwise.Proofs.Descent.Slices

/-!
# Where a bracketing search ends

A step of a bracketing search can come to four things: it is lost in rounding, it pays,
it turns the search round, or it closes the interval. They are the constructors of
`Stepwise.Descent.Stride`.

In exact arithmetic the search is always at one of three stages
(`Stepwise.Descent.Stage`): it has not decided on a direction, it has just turned round,
or its last step has paid. So when it closes the interval it knows three points of which
the one in the middle is lowest (`Stepwise.Descent.Dip`): the point before the best one,
the best one, and the one that did not pay. A minimum of a strictly convex function lies
strictly between the outer two.

The interval that is returned has the last two of them as its ends. The minimum may lie
on the other side of the best point, and then it is not in the interval
(`Stepwise.Descent.search_misses`).
-/

namespace Stepwise.Descent

open Matrix

/-! ### One step -/

section Strides

variable {R : Type} [Scalar R]

open Scalar

/-- What a step of a bracketing search comes to. -/
inductive Stride (φ : R → Except Fault R) (start : R) (a : Advance R) :
    Round (Advance R) (Bracket R) → Prop
  /-- A first step is lost in rounding. -/
  | lost {value : R} (hvalue : φ (a.reached + a.step) = .ok value) (hfresh : a.fresh = true)
      (hclose : abs (value - start) ≤ slack start) :
      Stride φ start a (.again ⟨a.step * ofNat 2, a.reached, ofNat 0, a.best, a.fresh⟩)
  /-- A step pays. -/
  | gain {value : R} (hvalue : φ (a.reached + a.step) = .ok value)
      (hheard : a.fresh = true → ¬abs (value - start) ≤ slack start) (hless : value < a.best) :
      Stride φ start a (.again ⟨a.step * ofNat 2, a.reached, a.reached + a.step, value, false⟩)
  /-- A first step does not pay. -/
  | turn {value : R} (hvalue : φ (a.reached + a.step) = .ok value) (hfresh : a.fresh = true)
      (hheard : ¬abs (value - start) ≤ slack start) (hless : ¬value < a.best) :
      Stride φ start a (.again ⟨-a.step, ofNat 0, ofNat 0, a.best, false⟩)
  /-- A later step does not pay. -/
  | close {value : R} (hvalue : φ (a.reached + a.step) = .ok value) (hfresh : a.fresh = false)
      (hless : ¬value < a.best) :
      Stride φ start a (.done (.between a.reached (a.reached + a.step) true))

/-- **A step comes to one of the four.** -/
theorem stride_iff {φ : R → Except Fault R} {start : R} {a : Advance R}
    {r : Round (Advance R) (Bracket R)} : Stride φ start a r ↔ a.next φ start = .ok r := by
  constructor
  · rintro (⟨hvalue, hfresh, hclose⟩ | ⟨hvalue, hheard, hless⟩ | ⟨hvalue, hfresh, hheard, hless⟩ |
      ⟨hvalue, hfresh, hless⟩)
    · simp [Advance.next, hvalue, hfresh, hclose, pure, Except.pure]
    · cases hfresh : a.fresh with
      | true => simp [Advance.next, hvalue, hfresh, hheard hfresh, hless, pure, Except.pure]
      | false => simp [Advance.next, hvalue, hfresh, hless, pure, Except.pure]
    · simp [Advance.next, hvalue, hfresh, hheard, hless, pure, Except.pure]
    · simp [Advance.next, hvalue, hfresh, hless, pure, Except.pure]
  · intro h
    obtain ⟨value, hvalue, h⟩ := bind_eq_ok.mp h
    -- The cases are those that the step itself distinguishes, in its order.
    split_ifs at h with hclose hless hfresh
    · rw [Bool.and_eq_true, decide_eq_true_iff] at hclose
      cases h
      exact .lost hvalue hclose.1 hclose.2
    · cases h
      exact .gain hvalue (fun hf hc => hclose (by simp [hf, hc])) hless
    · cases h
      exact .turn hvalue hfresh (fun hc => hclose (by simp [hfresh, hc])) hless
    · cases h
      exact .close hvalue (by simpa using hfresh) hless

@[simp] theorem between_closed (a b : R) (closed : Bool) :
    (Bracket.between a b closed).closed = closed := by
  rw [Bracket.between]
  split <;> rfl

/-- No step fails along a function that always has a value. -/
theorem Advance.exists_next (g : R → R) (start : R) (a : Advance R) :
    ∃ r, a.next (fun t => .ok (g t)) start = .ok r := by
  simp only [Advance.next, ok_bind]
  split_ifs <;> exact ⟨_, rfl⟩

/-- The parts of a bracketing search: it uses up its rounds, or a step that does not pay ends
it. -/
theorem Bracket.search_eq_ok {φ : R → Except Fault R} {step : R} {cap : Nat} {b : Bracket R} :
    Bracket.search φ step cap = .ok b ↔ ∃ start, φ (ofNat 0) = .ok start ∧
      ((∃ a, rounds (fun _ a => .orFail (Advance.next φ start a)) cap 0 (.begin step start) =
          .again a ∧ b = .between a.previous a.reached false) ∨
        rounds (fun _ a => .orFail (Advance.next φ start a)) cap 0 (.begin step start) =
          .done (.ok b)) := by
  rw [Bracket.search, bind_eq_ok]
  refine exists_congr fun start => and_congr_right fun _ => ?_
  cases rounds (fun _ a => .orFail (Advance.next φ start a)) cap 0 (.begin step start) with
  | again a => simp [@eq_comm _ b]
  | done answer => simp

/-- **An interval says that it is closed exactly if a step that did not pay ended the search.** -/
theorem Bracket.search_closed_iff {φ : R → Except Fault R} {step : R} {cap : Nat} {b : Bracket R}
    (h : Bracket.search φ step cap = .ok b) :
    b.closed = true ↔ ∃ start, φ (ofNat 0) = .ok start ∧
      rounds (fun _ a => .orFail (Advance.next φ start a)) cap 0 (.begin step start) =
        .done (.ok b) := by
  obtain ⟨start, hstart, ⟨a, hrounds, rfl⟩ | hrounds⟩ := Bracket.search_eq_ok.mp h
  · rw [between_closed]
    refine iff_of_false (by decide) ?_
    rintro ⟨start', hstart', hrounds'⟩
    cases hstart.symm.trans hstart'
    exact nomatch hrounds.symm.trans hrounds'
  · refine iff_of_true ?_ ⟨start, hstart, hrounds⟩
    obtain ⟨n, -, a, -, hlast⟩ := rounds_orFail_eq_done_ok.mp hrounds
    cases stride_iff.mpr hlast
    exact between_closed _ _ _

end Strides

/-! ### Three points -/

variable {g : ℝ → ℝ} {start : ℝ}

/-- Three points of which the one in the middle is lowest, and no worse than the start; the
first two are no farther apart than the last two. -/
structure Dip (g : ℝ → ℝ) (before best failed : ℝ) : Prop where
  /-- The best point lies between the other two. -/
  between : before < best ∧ best < failed ∨ failed < best ∧ best < before
  /-- It is no worse than the point before. -/
  le_before : g best ≤ g before
  /-- It is no worse than the point that did not pay. -/
  le_failed : g best ≤ g failed
  /-- It is no worse than the start. -/
  le_start : g best ≤ g 0
  /-- The step before was no longer than the one that did not pay. -/
  near : |best - before| ≤ |failed - best|

/-- **The minimum lies strictly between the outer two of three such points.** -/
theorem Dip.minimum {before best failed m : ℝ} (h : Dip g before best failed)
    (hg : Unimodal g m) : before < m ∧ m < failed ∨ failed < m ∧ m < before := by
  rcases h.between with ⟨hbefore, hfailed⟩ | ⟨hfailed, hbefore⟩
  · exact .inl ⟨hg.lt_minimum hbefore h.le_before, hg.minimum_lt hfailed h.le_failed⟩
  · exact .inr ⟨hg.lt_minimum hfailed h.le_failed, hg.minimum_lt hbefore h.le_before⟩

/-- The minimum is nearer to the best point than the point that did not pay. -/
theorem Dip.minimum_near {before best failed m : ℝ} (h : Dip g before best failed)
    (hg : Unimodal g m) : |m - best| < |failed - best| := by
  have hnear := h.near
  rcases h.between with ⟨hbefore, hfailed⟩ | ⟨hfailed, hbefore⟩
  · obtain ⟨hlow, hhigh⟩ : before < m ∧ m < failed :=
      (h.minimum hg).resolve_right fun hc => by linarith
    rw [abs_of_pos (sub_pos.mpr hbefore), abs_of_pos (sub_pos.mpr hfailed)] at hnear
    rw [abs_of_pos (sub_pos.mpr hfailed), abs_lt]
    constructor <;> linarith
  · obtain ⟨hlow, hhigh⟩ : failed < m ∧ m < before :=
      (h.minimum hg).resolve_left fun hc => by linarith
    rw [abs_of_neg (sub_neg.mpr hbefore), abs_of_neg (sub_neg.mpr hfailed)] at hnear
    rw [abs_of_neg (sub_neg.mpr hfailed), abs_lt]
    constructor <;> linarith

/-! ### The stages of a search -/

/-- How far a bracketing search of `g` has come. -/
inductive Stage (g : ℝ → ℝ) (a : Advance ℝ) : Prop
  /-- No step has decided on a direction. -/
  | fresh (hfresh : a.fresh = true) (hprevious : a.previous = 0) (hreached : a.reached = 0)
      (hbest : a.best = g 0) (hstep : 0 < a.step)
  /-- The first step did not pay. -/
  | turned (hfresh : a.fresh = false) (hprevious : a.previous = 0) (hreached : a.reached = 0)
      (hbest : a.best = g 0) (hstep : a.step < 0) (hrise : g 0 ≤ g (-a.step))
  /-- The last step paid, and the next one is twice as long. -/
  | paid (hfresh : a.fresh = false) (hbest : a.best = g a.reached)
      (hstep : a.step = (a.reached - a.previous) * 2) (hless : g a.reached < g a.previous)
      (hstart : g a.previous ≤ g 0)

/-- The search looks at points no worse than the start. -/
theorem Stage.le_start {a : Advance ℝ} (h : Stage g a) :
    g a.previous ≤ g 0 ∧ g a.reached ≤ g 0 := by
  cases h with
  | fresh hfresh hprevious hreached => rw [hprevious, hreached]; exact ⟨le_rfl, le_rfl⟩
  | turned hfresh hprevious hreached => rw [hprevious, hreached]; exact ⟨le_rfl, le_rfl⟩
  | paid hfresh hbest hstep hless hstart => exact ⟨hstart, hless.le.trans hstart⟩

/-- **A step leads from stage to stage.** -/
theorem Stage.next {a next : Advance ℝ} (h : Stage g a)
    (hstride : Stride (fun t => .ok (g t)) start a (.again next)) : Stage g next := by
  cases hstride with
  | lost hvalue hfresh hclose =>
    cases h with
    | fresh _ hprevious hreached hbest hstep =>
      exact .fresh hfresh hreached (by simp) hbest (by simpa)
    | turned hstale => exact nomatch hfresh.symm.trans hstale
    | paid hstale => exact nomatch hfresh.symm.trans hstale
  | turn hvalue hfresh hheard hless =>
    cases hvalue
    cases h with
    | fresh _ hprevious hreached hbest hstep =>
      rw [hreached, zero_add, hbest, not_lt] at hless
      exact .turned rfl (by simp) (by simp) hbest (by simpa) (by simpa)
    | turned hstale => exact nomatch hfresh.symm.trans hstale
    | paid hstale => exact nomatch hfresh.symm.trans hstale
  | gain hvalue hheard hless =>
    cases hvalue
    -- At every stage the best value is that of the point reached.
    have hbest : a.best = g a.reached := by
      cases h with
      | fresh _ _ hreached hbest => rw [hbest, hreached]
      | turned _ _ hreached hbest => rw [hbest, hreached]
      | paid _ hbest => exact hbest
    exact .paid rfl rfl (by simp) (hbest ▸ hless) h.le_start.2

/-- **A search that closes its interval has found three such points.** -/
theorem Stage.dip {a : Advance ℝ} (h : Stage g a) {b : Bracket ℝ}
    (hstride : Stride (fun t => .ok (g t)) start a (.done b)) :
    ∃ before best failed, Dip g before best failed ∧ b = .between best failed true := by
  cases hstride with
  | close hvalue hstale hless =>
    cases hvalue
    rw [not_lt] at hless
    cases h with
    | fresh hfresh => exact nomatch hfresh.symm.trans hstale
    | turned _ hprevious hreached hbest hstep hrise =>
      -- Neither direction pays: the start is the best point of the three.
      refine ⟨-a.step, a.reached, a.reached + a.step, ?_, rfl⟩
      rw [hreached, zero_add] at hless ⊢
      exact ⟨.inr ⟨hstep, neg_pos.mpr hstep⟩, hrise, hbest ▸ hless, le_rfl, by simp⟩
    | paid _ hbest hstep hpaid hstart =>
      refine ⟨a.previous, a.reached, a.reached + a.step, ?_, rfl⟩
      rw [hbest] at hless
      have hne : a.reached - a.previous ≠ 0 := by
        intro heq
        rw [sub_eq_zero.mp heq] at hpaid
        exact lt_irrefl _ hpaid
      refine ⟨?_, hpaid.le, hless, hpaid.le.trans hstart, ?_⟩
      · rcases lt_or_gt_of_ne hne with hneg | hpos
        · exact .inr ⟨by linarith, by linarith⟩
        · exact .inl ⟨by linarith, by linarith⟩
      · rw [add_sub_cancel_left, hstep, abs_mul]
        have hnonneg := abs_nonneg (a.reached - a.previous)
        norm_num
        linarith

/-! ### The whole search -/

/-- What a bracketing search of `g` can return. -/
inductive Bracketed (g : ℝ → ℝ) : Bracket ℝ → Prop
  /-- The interval between the last two of three points of which the middle one is lowest. -/
  | closed {before best failed : ℝ} (hdip : Dip g before best failed) :
      Bracketed g (.between best failed true)
  /-- The interval between two points no worse than the start. -/
  | cut {a b : ℝ} (ha : g a ≤ g 0) (hb : g b ≤ g 0) : Bracketed g (.between a b false)

theorem between_low_le_high (a b : ℝ) (closed : Bool) :
    (Bracket.between a b closed).low ≤ (Bracket.between a b closed).high := by
  rw [Bracket.between]
  split_ifs with hab
  · exact hab
  · exact (not_le.mp hab).le

theorem Bracketed.low_le_high {b : Bracket ℝ} (h : Bracketed g b) : b.low ≤ b.high := by
  cases h with
  | closed hdip => exact between_low_le_high _ _ _
  | cut ha hb => exact between_low_le_high _ _ _

/-- The lower end is no worse than the start, or else the upper end lies above it and is. -/
theorem Bracketed.ends {b : Bracket ℝ} (h : Bracketed g b) :
    g b.low ≤ g 0 ∨ b.low < b.high ∧ g b.high ≤ g 0 := by
  cases h with
  | closed hdip =>
    rcases hdip.between with ⟨-, hlt⟩ | ⟨hlt, -⟩
    · rw [Bracket.between, if_pos hlt.le]
      exact .inl hdip.le_start
    · rw [Bracket.between, if_neg (not_le.mpr hlt)]
      exact .inr ⟨hlt, hdip.le_start⟩
  | cut ha hb =>
    rw [Bracket.between]
    split_ifs
    · exact .inl ha
    · exact .inl hb

/-- Both ends of an interval that the search did not close are no worse than the start. -/
theorem Bracketed.ends_of_cut {b : Bracket ℝ} (h : Bracketed g b) (hcut : b.closed = false) :
    g b.low ≤ g 0 ∧ g b.high ≤ g 0 := by
  cases h with
  | closed hdip => simp at hcut
  | cut ha hb =>
    rw [Bracket.between]
    split_ifs
    · exact ⟨ha, hb⟩
    · exact ⟨hb, ha⟩

/-- **A bracketing search ends with such an interval.** -/
theorem search_bracketed (g : ℝ → ℝ) {step : ℝ} (hstep : 0 < step) (cap : ℕ) :
    ∃ b, Bracket.search (fun t => .ok (g t)) step cap = .ok b ∧ Bracketed g b := by
  have hbegin : Stage g (Advance.begin step (g 0)) :=
    .fresh rfl (by simp [Advance.begin]) (by simp [Advance.begin]) rfl hstep
  have hstage {k : ℕ} {a : Advance ℝ}
      (h : rounds (fun _ a => .orFail (a.next (fun t => .ok (g t)) (g 0))) k 0
        (Advance.begin step (g 0)) = .again a) : Stage g a :=
    rounds_invariant hbegin
      (fun _ _ _ hs hnext => hs.next (stride_iff.mpr (orFail_eq_again.mp hnext))) h
  rw [Bracket.search, ok_bind, Scalar.ofNat_real, Nat.cast_zero]
  cases hrounds : rounds (fun _ a => .orFail (a.next (fun t => .ok (g t)) (g 0))) cap 0
      (Advance.begin step (g 0)) with
  | again a =>
    obtain ⟨hprevious, hreached⟩ := (hstage hrounds).le_start
    exact ⟨_, rfl, .cut hprevious hreached⟩
  | done answer =>
    obtain ⟨k, -, a, ha, hdone⟩ := rounds_eq_done.mp hrounds
    obtain ⟨r, hr⟩ := a.exists_next g (g 0)
    rw [hr] at hdone
    cases r with
    | again next => exact nomatch hdone
    | done b =>
      cases hdone
      obtain ⟨before, best, failed, hdip, rfl⟩ := (hstage ha).dip (stride_iff.mpr hr)
      exact ⟨_, rfl, .closed hdip⟩

/-- Where no first step pays, in neither direction, the search returns to the start from the second
one. -/
theorem search_turned {g : ℝ → ℝ} {step : ℝ} (hstep : 0 < step)
    (hheard : slack (g 0) < |g step - g 0|) (hforth : g 0 ≤ g step) (hback : g 0 ≤ g (-step))
    (cap : ℕ) :
    Bracket.search (fun t => .ok (g t)) step (cap + 1 + 1) = .ok ⟨-step, 0, true⟩ := by
  have hfirst : Advance.next (fun t => .ok (g t)) (g 0) (.begin step (g 0)) =
      .ok (.again ⟨-step, 0, 0, g 0, false⟩) := by
    simp [Advance.next, Advance.begin, hheard.not_ge, hforth.not_gt, pure, Except.pure]
  have hsecond : Advance.next (fun t => .ok (g t)) (g 0) ⟨-step, 0, 0, g 0, false⟩ =
      .ok (.done ⟨-step, 0, true⟩) := by
    simp [Advance.next, Bracket.between, hback.not_gt, hstep.not_ge, pure, Except.pure]
  rw [Bracket.search, ok_bind, Scalar.ofNat_real, Nat.cast_zero,
    rounds_succ_of_again (by rw [hfirst]; rfl), rounds_succ_of_done (by rw [hsecond]; rfl)]

/-! ### The square on a line -/

/-- On a line the slice of the square is a parabola. -/
theorem slice_square (a t : ℝ) : slice (fun u => u ⬝ᵥ u) ![a] ![1] t = (a + t) ^ 2 := by
  simp [slice, dotProduct, sq]

theorem square_hasValue {n : ℕ} (h : ℝ) :
    HasValue (square.complete h) fun u : Fin n → ℝ => u ⬝ᵥ u := fun u => Vec.dot_ofFn u u

/-- The square along a line is its slice. -/
theorem value_square (a h : ℝ) :
    (⟨List.ofFn ![a], List.ofFn ![1]⟩ : Ray ℝ).value (square.complete h) =
      fun t => .ok ((a + t) ^ 2) := by
  rw [(square_hasValue h).slice]
  simp only [slice_square]

theorem strictConvexOn_slice_square (a : ℝ) :
    StrictConvexOn ℝ Set.univ (slice (fun u => u ⬝ᵥ u) ![a] ![1]) := by
  have hsquare : StrictConvexOn ℝ Set.univ fun z : ℝ => z ^ 2 :=
    Even.strictConvexOn_pow even_two two_ne_zero
  refine (hsquare.translate_right a).congr fun t _ => ?_
  exact (slice_square a t).symm

/-- The parabola has its minimum where the square vanishes. -/
theorem slice_square_minimum {a m : ℝ} (h : a + m = 0) (t : ℝ) :
    slice (fun u => u ⬝ᵥ u) ![a] ![1] m ≤ slice (fun u => u ⬝ᵥ u) ![a] ![1] t := by
  rw [slice_square, slice_square, h, zero_pow two_ne_zero]
  exact sq_nonneg _

/-- Settings with a first step as long as the unit. -/
noncomputable def unitStep : Settings ℝ := { (Settings.default : Settings ℝ) with step := 1 }

theorem unitStep_check : unitStep.check = .ok () := by
  rw [check_eq_ok_iff]
  norm_num [unitStep, Settings.default, Scalar.singleGap]

/-- From nine quarters below the minimum of the square, the search goes over it in steps of
one, two and four, of which only the last does not pay. -/
theorem bracket_square :
    (⟨List.ofFn ![-9 / 4], List.ofFn ![1]⟩ : Ray ℝ).bracket (square.complete 1) unitStep =
      .ok ⟨3, 7, true⟩ := by
  have hfirst : Advance.next (fun t => .ok ((-9 / 4 + t) ^ 2)) (81 / 16 : ℝ)
      (.begin 1 (81 / 16)) = .ok (.again ⟨2, 0, 1, 25 / 16, false⟩) := by
    norm_num [Advance.next, Advance.begin, slack, Scalar.doubleGap, abs_of_neg, pure, Except.pure]
  have hsecond : Advance.next (fun t => .ok ((-9 / 4 + t) ^ 2)) (81 / 16 : ℝ)
      ⟨2, 0, 1, 25 / 16, false⟩ = .ok (.again ⟨4, 1, 3, 9 / 16, false⟩) := by
    norm_num [Advance.next, pure, Except.pure]
  have hthird : Advance.next (fun t => .ok ((-9 / 4 + t) ^ 2)) (81 / 16 : ℝ)
      ⟨4, 1, 3, 9 / 16, false⟩ = .ok (.done ⟨3, 7, true⟩) := by
    norm_num [Advance.next, Bracket.between, pure, Except.pure]
  have hstart : (-9 / 4 + (Scalar.ofNat 0 : ℝ)) ^ 2 = 81 / 16 := by norm_num
  rw [Ray.bracket, value_square, Bracket.search, ok_bind, hstart]
  rw [show unitStep.maxIters = 32764 + 1 + 1 + 1 from rfl, show unitStep.step = 1 from rfl,
    rounds_succ_of_again (by rw [hfirst]; rfl), rounds_succ_of_again (by rw [hsecond]; rfl),
    rounds_succ_of_done (by rw [hthird]; rfl)]

/-- From three halves below it, the search goes over the minimum in steps of one and two, of which
the first pays. -/
theorem bracket_across :
    (⟨List.ofFn ![-3 / 2], List.ofFn ![1]⟩ : Ray ℝ).bracket (square.complete 1) unitStep =
      .ok ⟨1, 3, true⟩ := by
  have hfirst : Advance.next (fun t => .ok ((-3 / 2 + t) ^ 2)) (9 / 4 : ℝ)
      (.begin 1 (9 / 4)) = .ok (.again ⟨2, 0, 1, 1 / 4, false⟩) := by
    norm_num [Advance.next, Advance.begin, slack, Scalar.doubleGap, abs_of_neg, pure, Except.pure]
  have hsecond : Advance.next (fun t => .ok ((-3 / 2 + t) ^ 2)) (9 / 4 : ℝ)
      ⟨2, 0, 1, 1 / 4, false⟩ = .ok (.done ⟨1, 3, true⟩) := by
    norm_num [Advance.next, Bracket.between, pure, Except.pure]
  have hstart : (-3 / 2 + (Scalar.ofNat 0 : ℝ)) ^ 2 = 9 / 4 := by norm_num
  rw [Ray.bracket, value_square, Bracket.search, ok_bind, hstart]
  rw [show unitStep.maxIters = 32765 + 1 + 1 from rfl, show unitStep.step = 1 from rfl,
    rounds_succ_of_again (by rw [hfirst]; rfl), rounds_succ_of_done (by rw [hsecond]; rfl)]

/-! ### The search along a ray -/

section Rays

variable {n : ℕ} {F : (Fin n → ℝ) → ℝ} {f : Oracle ℝ} {s : Settings ℝ} {x p : Fin n → ℝ} {m : ℝ}

/-- The bracketing search along a ray is the one along the slice. -/
theorem bracket_bracketed (hf : HasValue f F) (hs : s.check = .ok ()) (x p : Fin n → ℝ) :
    ∃ b, (⟨List.ofFn x, List.ofFn p⟩ : Ray ℝ).bracket f s = .ok b ∧
      Bracketed (slice F x p) b := by
  rw [Ray.bracket, hf.slice]
  exact search_bracketed _ (Settings.step_pos hs) s.maxIters

/-- **A bracketing search that closes its interval has the minimum next to it**: between the
point before the best one and the point that did not pay, and so nearer to the best point,
which is one end of the interval, than the other end is. -/
theorem bracket_minimum (hf : HasValue f F) (hs : s.check = .ok ())
    (hconvex : StrictConvexOn ℝ Set.univ (slice F x p))
    (hm : ∀ t, slice F x p m ≤ slice F x p t) :
    ∃ b, (⟨List.ofFn x, List.ofFn p⟩ : Ray ℝ).bracket f s = .ok b ∧ (b.closed = true →
      ∃ before best failed, b = .between best failed true ∧
        Dip (slice F x p) before best failed ∧
        (before < m ∧ m < failed ∨ failed < m ∧ m < before) ∧ |m - best| < |failed - best|) := by
  obtain ⟨b, hb, hbracketed⟩ := bracket_bracketed hf hs x p
  refine ⟨b, hb, fun hclosed => ?_⟩
  cases hbracketed with
  | cut ha hb => simp at hclosed
  | @closed before best failed hdip =>
    have hg := unimodal_of_strictConvexOn hconvex hm
    exact ⟨before, best, failed, rfl, hdip, hdip.minimum hg, hdip.minimum_near hg⟩

/-- The search that goes over the minimum has it between its second point and its last. -/
theorem bracket_minimum_square :
    ∃ before best failed, (⟨3, 7, true⟩ : Bracket ℝ) = .between best failed true ∧
      Dip (slice (fun u => u ⬝ᵥ u) ![-9 / 4] ![1]) before best failed ∧
      (before < 9 / 4 ∧ 9 / 4 < failed ∨ failed < 9 / 4 ∧ 9 / 4 < before) ∧
      |9 / 4 - best| < |failed - best| := by
  obtain ⟨b, hb, hminimum⟩ := bracket_minimum (m := 9 / 4) (square_hasValue 1) unitStep_check
    (strictConvexOn_slice_square (-9 / 4)) (slice_square_minimum (by norm_num))
  obtain rfl : (⟨3, 7, true⟩ : Bracket ℝ) = b := Except.ok.inj (bracket_square.symm.trans hb)
  exact hminimum rfl

/-- **The interval that a bracketing search closes need not contain the minimum.** -/
theorem search_misses :
    unitStep.check = .ok () ∧
      StrictConvexOn ℝ Set.univ (slice (fun u => u ⬝ᵥ u) ![-9 / 4] ![1]) ∧
      (∀ t, slice (fun u => u ⬝ᵥ u) ![-9 / 4] ![1] (9 / 4) ≤
        slice (fun u => u ⬝ᵥ u) ![-9 / 4] ![1] t) ∧
      ∃ b, (⟨List.ofFn ![-9 / 4], List.ofFn ![1]⟩ : Ray ℝ).bracket (square.complete 1) unitStep =
        .ok b ∧ b.closed = true ∧ ¬(b.low ≤ 9 / 4 ∧ 9 / 4 ≤ b.high) := by
  refine ⟨unitStep_check, strictConvexOn_slice_square _, slice_square_minimum (by norm_num), _,
    bracket_square, rfl, ?_⟩
  norm_num

end Rays

end Stepwise.Descent
