import Stepwise.Proofs.Descent.Landings
import Stepwise.Proofs.Descent.Reduction

/-!
# The intervals of a reduction

An interval reduction goes from interval to interval. Which of them it has reached after a
number of rounds is a relation of its own here (`Stepwise.Descent.Reduction.Reached`): a
bracket determines the first one, each round the next (`Stepwise.Descent.Reduction.reached_succ`),
and the search ends in the round that makes an answer of the last
(`Stepwise.Descent.Reduction.search_eq_some_iff`).

Two line searches are interval reductions (`Stepwise.Descent.Reduces`), so what they do is told
by the intervals they reach (`Stepwise.Descent.Reduces.lineSearch_eq_ok`).
-/

namespace Stepwise.Descent

variable {R : Type} [Scalar R]

/-- A round that ends the search says which one it was. -/
theorem Shrink.iter_eq {φ : R → Except Fault R} {nextRate : R → R} {tol : R} {iter : Nat}
    {s : Reduction R} {hit : Hit R} (h : Shrink φ nextRate tol iter s (.done hit)) :
    hit.iter = iter := by
  cases h <;> rfl

namespace Reduction

section Intervals

variable (φ : R → Except Fault R) (rates : Rates R) (delta : R) (b : Bracket R)

/-- The reduction of a bracket comes to an interval after `n` rounds. -/
def Reached (n : Nat) (s : Reduction R) : Prop :=
  ∃ first, start φ rates.first b = .ok first ∧
    rounds (fun iter s => .orFail (s.next φ rates.next (tolerance delta (b.high - b.low)) iter))
      n 0 first = .again s

variable {φ rates delta b} {n : Nat} {s s' : Reduction R}

theorem reached_zero : Reached φ rates delta b 0 s ↔ start φ rates.first b = .ok s := by
  simp [Reached]

/-- **Each interval but the first comes from the one before by a round.** -/
theorem reached_succ :
    Reached φ rates delta b (n + 1) s' ↔ ∃ s, Reached φ rates delta b n s ∧
      Shrink φ rates.next (tolerance delta (b.high - b.low)) n s (.again s') := by
  simp only [Reached, rounds_succ_eq_again, Nat.zero_add, orFail_eq_again, shrink_iff]
  constructor
  · rintro ⟨first, hfirst, s, hs, hround⟩
    exact ⟨s, ⟨first, hfirst, hs⟩, hround⟩
  · rintro ⟨s, ⟨first, hfirst, hs⟩, hround⟩
    exact ⟨first, hfirst, s, hs, hround⟩

/-- There is one interval after every number of rounds. -/
theorem Reached.unique (h : Reached φ rates delta b n s) (h' : Reached φ rates delta b n s') :
    s = s' := by
  obtain ⟨first, hfirst, hs⟩ := h
  obtain ⟨first', hfirst', hs'⟩ := h'
  cases hfirst.symm.trans hfirst'
  cases hs.symm.trans hs'
  rfl

/-- No interval is reached after the round that ends the search. -/
theorem Reached.le_of_done (h : Reached φ rates delta b n s) {m : Nat} {last : Reduction R}
    (hlast : Reached φ rates delta b m last) {hit : Hit R}
    (hdone : Shrink φ rates.next (tolerance delta (b.high - b.low)) m last (.done hit)) :
    n ≤ m := by
  by_contra hlt
  obtain ⟨k, rfl⟩ : ∃ k, n = m + 1 + k := ⟨n - (m + 1), by omega⟩
  clear hlt
  induction k generalizing s with
  | succ k ih =>
    obtain ⟨mid, hmid, -⟩ := reached_succ.mp h
    exact ih hmid
  | zero =>
    obtain ⟨mid, hmid, hagain⟩ := reached_succ.mp h
    cases hmid.unique hlast
    exact nomatch (shrink_iff.mp hagain).symm.trans (shrink_iff.mp hdone)

/-- **A reduction finds its answer in the round that makes one of the interval reached.** -/
theorem search_eq_some_iff {cap : Nat} {hit : Hit R} :
    search φ rates delta cap b = .ok (some hit) ↔
      ∃ n < cap, ∃ s, Reached φ rates delta b n s ∧
        Shrink φ rates.next (tolerance delta (b.high - b.low)) n s (.done hit) := by
  constructor
  · intro h
    obtain ⟨first, hfirst, -⟩ := bind_eq_ok.mp h
    obtain ⟨n, hn, s, hs, hdone⟩ := search_eq_some hfirst h
    rw [Nat.zero_add] at hdone
    exact ⟨n, hn, s, ⟨first, hfirst, hs⟩, shrink_iff.mpr hdone⟩
  · rintro ⟨n, hn, s, ⟨first, hfirst, hs⟩, hdone⟩
    have hrounds := rounds_orFail_eq_done_ok.mpr
      ⟨n, hn, s, hs, by rw [Nat.zero_add]; exact shrink_iff.mp hdone⟩
    rw [search, hfirst, ok_bind, hrounds]
    rfl

end Intervals

end Reduction

/-! ### Line searches -/

/-- The line searches that reduce an interval, with their rates. -/
inductive Reduces : LineSearch → Rates R → Prop
  /-- By the golden ratio. -/
  | goldenSection : Reduces .goldenSection .golden
  /-- By quotients of Fibonacci numbers. -/
  | fibonacci : Reduces .fibonacci .fibonacci

/-- Both families of rates keep two points apart. -/
theorem Reduces.exists_spacing {search : LineSearch} {rates : Rates ℝ} (h : Reduces search rates) :
    ∃ S, Spacing rates S := by
  cases h with
  | goldenSection => exact ⟨_, spacing_golden⟩
  | fibonacci => exact ⟨_, spacing_fibonacci⟩

section LineSearches

variable {f : Oracle R} {s : Settings R} {rates : Rates R} {x p : Vec R}

theorem Reduces.lineSearch_eq (h : Reduces s.search rates) :
    lineSearch f s x p = landAlong (Ray.reduce rates f s) s x p := by
  rw [lineSearch]
  generalize s.search = search at h
  cases h with
  | goldenSection => rfl
  | fibonacci => rfl

/-- A reduction along a ray is one of the bracket found there. -/
theorem reduce_eq_some_iff {ray : Ray R} {hit : Hit R} :
    Ray.reduce rates f s ray = .ok (some hit) ↔ ∃ b, ray.bracket f s = .ok b ∧
      Reduction.search (ray.value f) rates s.delta s.maxIters b = .ok (some hit) := by
  simp only [Ray.reduce, lift_eq_ofFault, bind_eq_ok, Failure.ofFault_eq_ok]

/-- **Where a line search by interval reduction lands**: where the round that ends the reduction
says, on the ray. -/
theorem Reduces.lineSearch_eq_ok (h : Reduces s.search rates) {landing : Landing R} :
    lineSearch f s x p = .ok landing ↔ ∃ ray b n mid hit point,
      Ray.ofDirection x p = .ok ray ∧ ray.bracket f s = .ok b ∧ n < s.maxIters ∧
      Reduction.Reached (ray.value f) rates s.delta b n mid ∧
      Shrink (ray.value f) rates.next (tolerance s.delta (b.high - b.low)) n mid (.done hit) ∧
      ray.point hit.t = .ok point ∧ landing = ⟨point, some hit⟩ := by
  simp only [h.lineSearch_eq, landAlong_eq_ok, reduce_eq_some_iff, Reduction.search_eq_some_iff]
  constructor
  · rintro ⟨ray, hit, point, hray, ⟨b, hb, n, hn, mid, hmid, hdone⟩, hpoint, hlanding⟩
    exact ⟨ray, b, n, mid, hit, point, hray, hb, hn, hmid, hdone, hpoint, hlanding⟩
  · rintro ⟨ray, b, n, mid, hit, point, hray, hb, hn, hmid, hdone, hpoint, hlanding⟩
    exact ⟨ray, hit, point, hray, ⟨b, hb, n, hn, mid, hmid, hdone⟩, hpoint, hlanding⟩

end LineSearches

end Stepwise.Descent
