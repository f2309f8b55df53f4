import Stepwise.Proofs.Descent.Intervals
import Stepwise.Proofs.Doubles.Units

/-!
# The best of the points that an interval reduction looks at

A reduction asks for the function at two points to begin with, and at one more in every round
(`Stepwise.Descent.Reduction.Asked`). It keeps two points with their values, moves them from one
place to the other and exchanges them, and the values are always those of the points
(`Stepwise.Descent.Faithful`).

Of the two points a round drops the worse one. So one of the two that are kept is no worse than
anything that was dropped (`Stepwise.Descent.Matches`), and the last round returns the better one
of the two: **no point that the reduction has looked at is better than the one it returns**
(`Stepwise.Descent.lineSearch_best`), whatever the function is. Over doubles this takes for
granted that no value is undefined, since an undefined one is neither better nor worse.
-/

namespace Stepwise.Descent

open Reduction

/-! ### Points and their values -/

section Points

variable {R : Type} [Scalar R]

/-- The two points carry the values of the function. -/
structure Faithful (φ : R → Except Fault R) (s : Reduction R) : Prop where
  /-- The value at the lower point. -/
  lower : φ s.lower.t = .ok s.lower.value
  /-- The value at the upper point. -/
  upper : φ s.upper.t = .ok s.upper.value

/-- The parameters at which a reduction asks for the function: the two points it begins with, and
the one that each round but the last puts into the interval that is left. -/
inductive Reduction.Asked (φ : R → Except Fault R) (rates : Rates R) (delta : R) (b : Bracket R) :
    R → Prop
  /-- The lower one of the first two points. -/
  | lower : Asked φ rates delta b (b.high + rates.first * (b.low - b.high))
  /-- The upper one. -/
  | upper : Asked φ rates delta b (b.low + rates.first * (b.high - b.low))
  /-- The new point after the upper one was better. -/
  | dropLeft {n : Nat} {s : Reduction R} (hs : Reached φ rates delta b n s)
      (hless : s.upper.value < s.lower.value)
      (hwide : ¬s.right - s.lower.t < tolerance delta (b.high - b.low)) :
      Asked φ rates delta b (s.lower.t + s.rate * (s.right - s.lower.t))
  /-- The new point after the lower one was as good. -/
  | dropRight {n : Nat} {s : Reduction R} (hs : Reached φ rates delta b n s)
      (hless : ¬s.upper.value < s.lower.value)
      (hwide : ¬s.upper.t - s.left < tolerance delta (b.high - b.low)) :
      Asked φ rates delta b (s.upper.t + s.rate * (s.left - s.upper.t))

variable {φ : R → Except Fault R} {rates : Rates R} {delta : R} {b : Bracket R} {n : Nat}
  {s s' : Reduction R}

/-- What is true of one of the two points, in either order, is true of one of the points in
order. -/
theorem or_renew {P : Probe R → Prop} {nextRate : R → R} (h : P s.lower ∨ P s.upper) :
    P (s.renew nextRate).lower ∨ P (s.renew nextRate).upper := by
  rw [Reduction.renew, Reduction.inOrder]
  split_ifs
  · exact h.symm
  · exact h

/-- What is true of both is true of both in order. -/
theorem and_renew {P : Probe R → Prop} (nextRate : R → R) (hlower : P s.lower)
    (hupper : P s.upper) : P (s.renew nextRate).lower ∧ P (s.renew nextRate).upper := by
  rw [Reduction.renew, Reduction.inOrder]
  split_ifs
  · exact ⟨hupper, hlower⟩
  · exact ⟨hlower, hupper⟩

/-- **The points carry their values in every round**, and the reduction has asked for them. -/
theorem Reduction.Reached.faithful (h : Reached φ rates delta b n s) :
    Faithful φ s ∧ Asked φ rates delta b s.lower.t ∧ Asked φ rates delta b s.upper.t := by
  induction n generalizing s with
  | zero =>
    obtain ⟨lower, hlower, h⟩ := bind_eq_ok.mp (reached_zero.mp h)
    obtain ⟨upper, hupper, h⟩ := bind_eq_ok.mp h
    simp only [Probe.at, bind_eq_ok, pure_eq_ok_iff] at hlower hupper h
    obtain ⟨lowerValue, hlower, rfl⟩ := hlower
    obtain ⟨upperValue, hupper, rfl⟩ := hupper
    subst h
    exact ⟨⟨hlower, hupper⟩, .lower, .upper⟩
  | succ n ih =>
    obtain ⟨before, hbefore, hround⟩ := reached_succ.mp h
    obtain ⟨hfaithful, hlower, hupper⟩ := ih hbefore
    cases hround with
    | dropLeft hless hwide hvalue =>
      obtain ⟨⟨hl, hal⟩, hu, hau⟩ := and_renew rates.next
        (s := ⟨before.lower.t, before.right, before.upper, ⟨_, _⟩, before.rate⟩)
        (P := fun q => φ q.t = .ok q.value ∧ Asked φ rates delta b q.t)
        ⟨hfaithful.upper, hupper⟩ ⟨hvalue, .dropLeft hbefore hless hwide⟩
      exact ⟨⟨hl, hu⟩, hal, hau⟩
    | dropRight hless hwide hvalue =>
      obtain ⟨⟨hl, hal⟩, hu, hau⟩ := and_renew rates.next
        (s := ⟨before.left, before.upper.t, ⟨_, _⟩, before.lower, before.rate⟩)
        (P := fun q => φ q.t = .ok q.value ∧ Asked φ rates delta b q.t)
        ⟨hvalue, .dropRight hbefore hless hwide⟩ ⟨hfaithful.lower, hlower⟩
      exact ⟨⟨hl, hu⟩, hal, hau⟩

/-- What a reduction has asked for is a point of some interval, with its value. -/
theorem Reduction.Asked.exists_reached {t v : R} (h : Asked φ rates delta b t) (hv : φ t = .ok v)
    (hs : Reached φ rates delta b n s) : ∃ m mid, Reached φ rates delta b m mid ∧
      (mid.lower = ⟨t, v⟩ ∨ mid.upper = ⟨t, v⟩) := by
  cases h with
  | lower =>
    obtain ⟨first, hfirst, -⟩ := hs
    obtain ⟨lower, hlower, h⟩ := bind_eq_ok.mp hfirst
    obtain ⟨upper, -, h⟩ := bind_eq_ok.mp h
    cases h
    rw [Probe.at, hv] at hlower
    cases hlower
    exact ⟨0, _, reached_zero.mpr hfirst, .inl rfl⟩
  | upper =>
    obtain ⟨first, hfirst, -⟩ := hs
    obtain ⟨lower, -, h⟩ := bind_eq_ok.mp hfirst
    obtain ⟨upper, hupper, h⟩ := bind_eq_ok.mp h
    cases h
    rw [Probe.at, hv] at hupper
    cases hupper
    exact ⟨0, _, reached_zero.mpr hfirst, .inr rfl⟩
  | dropLeft hbefore hless hwide =>
    exact ⟨_, _, reached_succ.mpr ⟨_, hbefore, .dropLeft hless hwide hv⟩,
      or_renew (P := fun q => q = ⟨_, v⟩) (.inr rfl)⟩
  | dropRight hbefore hless hwide =>
    exact ⟨_, _, reached_succ.mpr ⟨_, hbefore, .dropRight hless hwide hv⟩,
      or_renew (P := fun q => q = ⟨_, v⟩) (.inl rfl)⟩

end Points

/-! ### Values over doubles -/

section Doubles

variable {φ : Float → Except Fault Float} {rates : Rates Float} {nextRate : Float → Float}
  {delta tol v : Float} {b : Bracket Float} {n m iter : Nat} {s s' : Reduction Float}
  {hit : Hit Float}

/-- One of the two points is no worse than a value. -/
def Matches (s : Reduction Float) (v : Float) : Prop := s.lower.value ≤ v ∨ s.upper.value ≤ v

/-- If the upper point is better, it is no worse than what one of the two matches. -/
theorem Matches.upper (h : Matches s v) (hless : s.upper.value < s.lower.value) :
    s.upper.value ≤ v :=
  h.elim (fun hlower => Double.le_trans (Double.le_of_lt hless) hlower) id

/-- If it is not, the lower one is, unless a value is undefined. -/
theorem Matches.lower (h : Matches s v) (hlower : ¬s.lower.value.isNaN)
    (hupper : ¬s.upper.value.isNaN) (hless : ¬s.upper.value < s.lower.value) :
    s.lower.value ≤ v :=
  h.elim id fun h => Double.le_trans (Double.le_of_not_lt hupper hlower hless) h

/-- **A round drops the worse point**, so what was matched before is matched after it. -/
theorem Matches.next (h : Matches s v) (hlower : ¬s.lower.value.isNaN)
    (hupper : ¬s.upper.value.isNaN) (hround : Shrink φ nextRate tol iter s (.again s')) :
    Matches s' v := by
  cases hround with
  | dropLeft hless hwide hvalue =>
    exact or_renew (P := fun q => q.value ≤ v) (.inl (h.upper hless))
  | dropRight hless hwide hvalue =>
    exact or_renew (P := fun q => q.value ≤ v) (.inr (h.lower hlower hupper hless))

/-- No value that the reduction asks for is undefined. -/
def Reduction.Defined (φ : Float → Except Fault Float) (rates : Rates Float) (delta : Float)
    (b : Bracket Float) : Prop :=
  ∀ t v, Asked φ rates delta b t → φ t = .ok v → ¬v.isNaN

theorem Reduction.Defined.values (h : Defined φ rates delta b) (hs : Reached φ rates delta b n s) :
    ¬s.lower.value.isNaN ∧ ¬s.upper.value.isNaN := by
  obtain ⟨hfaithful, hlower, hupper⟩ := hs.faithful
  exact ⟨h _ _ hlower hfaithful.lower, h _ _ hupper hfaithful.upper⟩

/-- **What one interval matches, every later one matches.** -/
theorem Reduction.Defined.matches_of_le (h : Defined φ rates delta b)
    (hs : Reached φ rates delta b n s) (hmatches : Matches s v) (hle : n ≤ m)
    (hs' : Reached φ rates delta b m s') : Matches s' v := by
  induction m, hle using Nat.le_induction generalizing s' with
  | base =>
    cases hs.unique hs'
    exact hmatches
  | succ m hle ih =>
    obtain ⟨before, hbefore, hround⟩ := reached_succ.mp hs'
    obtain ⟨hlower, hupper⟩ := h.values hbefore
    exact (ih hbefore).next hlower hupper hround

/-- **The point that a reduction returns is the best of those it has looked at.** -/
theorem Reduction.Defined.best (h : Defined φ rates delta b) (hs : Reached φ rates delta b n s)
    (hdone : Shrink φ rates.next (tolerance delta (b.high - b.low)) n s (.done hit)) :
    ∃ best, φ hit.t = .ok best ∧ ∀ t v, Asked φ rates delta b t → φ t = .ok v → best ≤ v := by
  have hmatches {t v : Float} (ht : Asked φ rates delta b t) (hv : φ t = .ok v) : Matches s v := by
    obtain ⟨m, mid, hmid, hpoint⟩ := ht.exists_reached hv hs
    have hself : v ≤ v := Double.le_refl (h t v ht hv)
    refine h.matches_of_le hmid ?_ (hmid.le_of_done hs hdone) hs
    exact hpoint.imp (fun hlower => by rwa [hlower]) fun hupper => by rwa [hupper]
  obtain ⟨hlower, hupper⟩ := h.values hs
  have hfaithful := hs.faithful.1
  cases hdone with
  | upper hless hnarrow =>
    exact ⟨_, hfaithful.upper, fun t v ht hv => (hmatches ht hv).upper hless⟩
  | lower hless hnarrow =>
    exact ⟨_, hfaithful.lower, fun t v ht hv => (hmatches ht hv).lower hlower hupper hless⟩

/-! ### The line searches -/

variable {f : Oracle Float} {settings : Settings Float} {x p : Vec Float} {ray : Ray Float}

/-- **An interval reduction returns the best point inside that it has looked at**: the two points
of every interval carry the values of the slice, and if none of the values asked for is undefined,
the objective is nowhere lower, among the points asked for, than where the search lands. -/
theorem lineSearch_best (hrates : Reduces settings.search rates)
    (hray : Ray.ofDirection x p = .ok ray) (hb : ray.bracket f settings = .ok b) :
    (∀ n s, Reached (ray.value f) rates settings.delta b n s →
      ray.value f s.lower.t = .ok s.lower.value ∧ ray.value f s.upper.t = .ok s.upper.value) ∧
    ((∀ t v, Asked (ray.value f) rates settings.delta b t → ray.value f t = .ok v → ¬v.isNaN) →
      ∀ landing, lineSearch f settings x p = .ok landing →
        ∃ best, f.value landing.point = .ok best ∧
          ∀ t v, Asked (ray.value f) rates settings.delta b t → ray.value f t = .ok v →
            best ≤ v) := by
  refine ⟨fun n s hs => ⟨hs.faithful.1.lower, hs.faithful.1.upper⟩, fun hdefined landing h => ?_⟩
  obtain ⟨ray', b', n, mid, hit, point, hray', hb', -, hmid, hdone, hpoint, rfl⟩ :=
    hrates.lineSearch_eq_ok.mp h
  cases hray.symm.trans hray'
  cases hb.symm.trans hb'
  obtain ⟨best, hbest, hle⟩ := Defined.best hdefined hmid hdone
  refine ⟨best, ?_, hle⟩
  rwa [Ray.value, hpoint, ok_bind] at hbest

/-- A staircase that goes down, up, and down again. -/
def staircase : Objective Float where
  value x := do
    let a ← x.component 0
    return if a < 1 then 3 else if a < 2 then 0 else if a < 3 then 2 else 1

/-- Settings of a search by the golden ratio in steps that the staircase can feel. -/
def strolling : Settings Float :=
  { (Settings.default : Settings Float) with
    step := 0.25, delta := 0.125, search := .goldenSection }

/-- On the staircase the search lands on the lowest of the steps it has looked at. -/
theorem lineSearch_best_staircase :
    ∃ ray b landing best, Ray.ofDirection [0] [1] = .ok ray ∧
      ray.bracket (staircase.complete 1) strolling = .ok b ∧
      lineSearch (staircase.complete 1) strolling [0] [1] = .ok landing ∧
      staircase.value landing.point = .ok best ∧
      ∀ t v, Asked (ray.value (staircase.complete 1)) .golden strolling.delta b t →
        ray.value (staircase.complete 1) t = .ok v → best ≤ v := by
  have hrates : Reduces strolling.search (Rates.golden : Rates Float) := .goldenSection
  have hok : (lineSearch (staircase.complete 1) strolling [0] [1]).isOk = true := by
    decide +kernel
  obtain ⟨landing, hlanding⟩ : ∃ landing,
      lineSearch (staircase.complete 1) strolling [0] [1] = .ok landing := by
    cases h : lineSearch (staircase.complete 1) strolling [0] [1] with
    | error e => exact nomatch h ▸ hok
    | ok landing => exact ⟨landing, rfl⟩
  obtain ⟨ray, b, n, mid, hit, point, hray, hb, -⟩ := hrates.lineSearch_eq_ok.mp hlanding
  obtain ⟨best, hbest, hle⟩ := (lineSearch_best hrates hray hb).2 (fun t v _ hv => by
    obtain ⟨x, -, hv⟩ := bind_eq_ok.mp hv
    obtain ⟨a, -, hv⟩ := bind_eq_ok.mp hv
    cases hv
    -- Every step of the staircase has a height.
    split_ifs <;> decide +kernel) landing hlanding
  exact ⟨ray, b, landing, best, hray, hb, hlanding, hbest, hle⟩

end Doubles

end Stepwise.Descent
