import Stepwise.Proofs.Descent.Account
import Stepwise.Proofs.Descent.Bracket

/-!
# A larger cap

One number caps every loop of a minimisation: the descent itself, the reduction or the
bisection of an interval, Newton's method on the slope, and the bracketing search. All but
the last of them fail when they use it up, so what they find they find under a larger cap as
well. The bracketing search does not fail; cut off by the cap it returns another interval
than it would have returned later, and says that this one is not closed.

So a descent that finds a solution is the same under a larger cap, provided that every
bracketing search on its way was closed (`Stepwise.Descent.BracketsClose`). Nested as they
are, the loops need one argument only: success goes from the inner loop to the outer one,
from one line search (`Stepwise.Descent.lineSearch_of_le`) over the step to the next iterate
to all iterates (`Stepwise.Descent.Reaches.of_le`). The round in which a descent ends makes
no search and does not ask for the cap.
-/

namespace Stepwise.Descent

variable {R σ : Type} [Scalar R]

/-- The settings with another cap. -/
def Settings.withCap (s : Settings R) (cap : Nat) : Settings R := { s with maxIters := cap }

/-- A line search that begins with a bracketing search. -/
def LineSearch.Brackets : LineSearch → Prop
  | .goldenSection | .fibonacci | .bisection => True
  | .trivial | .newton => False

/-! ### One loop -/

section Loops

variable {cap cap' : Nat} (hle : cap ≤ cap')

include hle

/-- A closed interval is found under every larger cap. -/
theorem Bracket.search_of_le {φ : R → Except Fault R} {step : R} {b : Bracket R}
    (h : Bracket.search φ step cap = .ok b) (hclosed : b.closed = true) :
    Bracket.search φ step cap' = .ok b := by
  obtain ⟨start, hstart, hrounds⟩ := (Bracket.search_closed_iff h).mp hclosed
  exact Bracket.search_eq_ok.mpr ⟨start, hstart, .inr (rounds_done_of_le hrounds hle)⟩

/-- A reduction that finds a point finds it under every larger cap. -/
theorem Reduction.search_of_le {φ : R → Except Fault R} {rates : Rates R} {delta : R}
    {b : Bracket R} {hit : Hit R} (h : Reduction.search φ rates delta cap b = .ok (some hit)) :
    Reduction.search φ rates delta cap' b = .ok (some hit) := by
  obtain ⟨s, hs, h⟩ := bind_eq_ok.mp h
  split at h
  · exact nomatch h
  · rename_i answer hrounds
    simpa only [Reduction.search, hs, ok_bind, rounds_done_of_le hrounds hle] using h

/-- A bisection that finds a point finds it under every larger cap. -/
theorem Halving.search_of_le {φ slope : R → Except Fault R} {epsilon delta : R} {b : Bracket R}
    {hit : Hit R} (h : Halving.search φ slope epsilon delta cap b = .ok (some hit)) :
    Halving.search φ slope epsilon delta cap' b = .ok (some hit) := by
  obtain ⟨leftSlope, hslope, h⟩ := bind_eq_ok.mp h
  dsimp only at h
  split at h
  · exact nomatch h
  · rename_i answer hrounds
    simpa only [Halving.search, hslope, ok_bind, rounds_done_of_le hrounds hle] using h

/-- A stationary point of a ray that Newton's method finds it finds under every larger cap. -/
theorem slopeRoot_of_le {r : Ray R} {f : Oracle R} {epsilon : R} {hit : Hit R}
    (h : r.slopeRoot f epsilon cap = .ok (some hit)) :
    r.slopeRoot f epsilon cap' = .ok (some hit) := by
  rw [Ray.slopeRoot] at h
  split at h
  · exact nomatch h
  · rename_i answer hrounds
    simpa only [Ray.slopeRoot, rounds_done_of_le hrounds hle] using h

end Loops

/-! ### One line search -/

section Searches

variable {f : Oracle R} {s : Settings R} {cap : Nat} (hle : s.maxIters ≤ cap)

include hle

theorem bracket_of_le {r : Ray R} {b : Bracket R} (h : r.bracket f s = .ok b)
    (hclosed : b.closed = true) : r.bracket f (s.withCap cap) = .ok b :=
  Bracket.search_of_le hle h hclosed

theorem reduce_of_le {rates : Rates R} {r : Ray R} {hit : Hit R}
    (h : Ray.reduce rates f s r = .ok (some hit))
    (hclosed : ∀ b, r.bracket f s = .ok b → b.closed = true) :
    Ray.reduce rates f (s.withCap cap) r = .ok (some hit) := by
  simp only [Ray.reduce, lift_eq_ofFault, bind_eq_ok, Failure.ofFault_eq_ok] at h ⊢
  obtain ⟨b, hb, hsearch⟩ := h
  exact ⟨b, bracket_of_le hle hb (hclosed b hb), Reduction.search_of_le hle hsearch⟩

theorem bisect_of_le {r : Ray R} {hit : Hit R} (h : Ray.bisect f s r = .ok (some hit))
    (hclosed : ∀ b, r.bracket f s = .ok b → b.closed = true) :
    Ray.bisect f (s.withCap cap) r = .ok (some hit) := by
  simp only [Ray.bisect, lift_eq_ofFault, bind_eq_ok, Failure.ofFault_eq_ok] at h ⊢
  obtain ⟨b, hb, hsearch⟩ := h
  exact ⟨b, bracket_of_le hle hb (hclosed b hb), Halving.search_of_le hle hsearch⟩

/-- **A line search that lands somewhere lands there under every larger cap**, if its
bracketing search was closed. -/
theorem lineSearch_of_le {x p : Vec R} {landing : Landing R}
    (h : lineSearch f s x p = .ok landing)
    (hclosed : s.search.Brackets → ∀ r b, Ray.ofDirection x p = .ok r → r.bracket f s = .ok b →
      b.closed = true) :
    lineSearch f (s.withCap cap) x p = .ok landing := by
  cases hs : s.search with
  | trivial =>
    simp only [lineSearch, Settings.withCap, hs] at h ⊢
    exact h
  | goldenSection =>
    simp only [lineSearch, Settings.withCap, hs, landAlong_eq_ok] at h ⊢
    obtain ⟨r, hit, point, hr, hfind, hrest⟩ := h
    exact ⟨r, hit, point, hr, reduce_of_le hle hfind fun b => hclosed (hs ▸ trivial) r b hr, hrest⟩
  | fibonacci =>
    simp only [lineSearch, Settings.withCap, hs, landAlong_eq_ok] at h ⊢
    obtain ⟨r, hit, point, hr, hfind, hrest⟩ := h
    exact ⟨r, hit, point, hr, reduce_of_le hle hfind fun b => hclosed (hs ▸ trivial) r b hr, hrest⟩
  | newton =>
    simp only [lineSearch, Settings.withCap, hs, landAlong_eq_ok] at h ⊢
    obtain ⟨r, hit, point, hr, hfind, hrest⟩ := h
    exact ⟨r, hit, point, hr, slopeRoot_of_le hle hfind, hrest⟩
  | bisection =>
    simp only [lineSearch, Settings.withCap, hs, landAlong_eq_ok] at h ⊢
    obtain ⟨r, hit, point, hr, hfind, hrest⟩ := h
    exact ⟨r, hit, point, hr, bisect_of_le hle hfind fun b => hclosed (hs ▸ trivial) r b hr, hrest⟩

end Searches

/-! ### A whole descent -/

section Descents

/-- The bracketing search along the unit direction that is taken from an iterate. -/
def Standing.bracket (f : Oracle R) (s : Settings R) (here : Standing R) :
    Except (Failure (Error R)) (Bracket R) := do
  let gradient ← f.gradient here.point
  let direction ← (here.guide.direction f here.point gradient).mapError (Failure.map .breakdown)
  let ray ← Breakdown.fail (Ray.ofDirection here.point direction)
  ray.bracket f s

/-- If the line searches bracket, then every bracketing search that was made on the way to
iterate number `n` ended with a step that did not pay, and not with the last round that the cap
allows. -/
def BracketsClose (f : Oracle R) (s : Settings R) (x₀ : Vec R) (n : Nat) : Prop :=
  s.search.Brackets → ∀ i < n, ∀ here b, iterate f s x₀ i = .ok here →
    here.bracket f s = .ok b → b.closed = true

variable {f : Oracle R} {s : Settings R} {observer : Observer (Visit R) σ} {memory : σ}
  {x₀ : Vec R} {cap : Nat}

theorem BracketsClose.mono {n m : Nat} (h : BracketsClose f s x₀ n) (hle : m ≤ n) :
    BracketsClose f s x₀ m :=
  fun hbrackets i hi => h hbrackets i (by omega)

/-- A step to the next iterate is made under every larger cap. -/
theorem move_of_le (hle : s.maxIters ≤ cap) {here next : Standing R} {gradient : Vec R} {i : Nat}
    {entries : Journal R} (hgradient : f.gradient here.point = .ok gradient)
    (h : here.move f s i gradient = (entries, .ok next))
    (hclosed : s.search.Brackets → ∀ b, here.bracket f s = .ok b → b.closed = true) :
    here.move f (s.withCap cap) i gradient = (entries, .ok next) := by
  cases hland : here.land f s gradient with
  | error e => exact absurd (congrArg Prod.snd h) (by simp [Standing.move, hland])
  | ok landing =>
    obtain ⟨direction, hdirection, hsearch⟩ := bind_eq_ok.mp hland
    have hsame : here.land f (s.withCap cap) gradient = .ok landing := by
      refine bind_eq_ok.mpr ⟨direction, hdirection, lineSearch_of_le hle hsearch ?_⟩
      intro hbrackets r b hr hb
      refine hclosed hbrackets b ?_
      simp only [Standing.bracket, hgradient, lift_eq_ofFault, Failure.ofFault_ok, ok_bind,
        hdirection, hr, Breakdown.fail, hb]
    simp only [Standing.move, hland, hsame] at h ⊢
    exact h

/-- **A descent that reaches an iterate reaches it under every larger cap** in the same way, if
no bracketing search on the way was cut off. -/
theorem Reaches.of_le (hle : s.maxIters ≤ cap) {n : Nat} {p : Progress R σ}
    (h : Reaches f s observer memory x₀ n p) (hclosed : BracketsClose f s x₀ n) :
    Reaches f (s.withCap cap) observer memory x₀ n p := by
  induction n generalizing p with
  | zero => exact h
  | succ n ih =>
    obtain ⟨before, hbefore, hnext⟩ := Reaches.succ.mp h
    have hiter := hbefore.iterate_eq
    refine Reaches.succ.mpr ⟨before, ih hbefore (hclosed.mono n.le_succ), ?_⟩
    cases passage_iff.mpr hnext with
    | onward hobserve hending hmove =>
      obtain ⟨hgradient, -⟩ := observe_iterate hiter hobserve
      have hmove' := move_of_le hle hgradient hmove fun hbrackets b =>
        hclosed hbrackets n n.lt_succ_self _ b hiter
      exact passage_iff.mp (.onward hobserve hending hmove')

/-- A descent that finds a solution is the same under every larger cap. -/
theorem descend_of_le (hle : s.maxIters ≤ cap) {sol : Solution R}
    (hsol : (descend f s observer memory x₀).outcome = .ok sol)
    (hclosed : BracketsClose f s x₀ sol.iters) :
    descend f (s.withCap cap) observer memory x₀ = descend f s observer memory x₀ := by
  cases hreport : descend f s observer memory x₀ with
  | mk outcome observed journal =>
  have hjourney := journey_descend f s observer memory x₀
  rw [hreport] at hsol hjourney
  cases hjourney with
  | start hstart => exact nomatch hsol
  | cap hreach => exact nomatch hsol
  | last hn hreach hlast =>
    cases passage_iff.mpr hlast with
    | fault hobserve => exact nomatch hsol
    | failure hobserve hending hmove => exact nomatch hsol
    | @ending gradient e ending hobserve hending =>
      obtain ⟨-, hvisit⟩ := observe_iterate hreach.iterate_eq hobserve
      obtain ⟨_, _, _, -, -, -, rfl⟩ := visit_eq_ok.mp hvisit
      cases hsol
      -- The last round observes, and what there is to observe does not depend on the cap.
      exact (hreach.of_le hle hclosed).descend_eq (hn.trans_le hle)
        (passage_iff.mp (.ending hobserve hending))

end Descents

/-! ### Minimisers -/

theorem check_withCap {s : Settings R} {cap : Nat} (hle : s.maxIters ≤ cap)
    (hcheck : s.check = .ok ()) : (s.withCap cap).check = .ok () := by
  obtain ⟨hcap, hrest⟩ := check_eq_ok_iff.mp hcheck
  exact check_eq_ok_iff.mpr ⟨fun h => hcap (by simp only [Settings.withCap] at h; omega), hrest⟩

/-- **A larger cap changes nothing about a solution.** If a minimisation finds one and no
bracketing search on the way was cut off by the cap, then under every larger cap it finds the
same, tells the same events, and makes the same report altogether. -/
theorem run_withCap {m : Minimiser R} {objective : Objective R}
    (hobjective : m.objective? = some objective) {observer : Observer (Visit R) σ} {memory : σ}
    {x₀ : Vec R} {sol : Solution R} (hsol : (m.run observer memory x₀).outcome = .ok sol)
    (hclosed : BracketsClose (objective.complete m.settings.step) m.settings x₀ sol.iters)
    {cap : Nat} (hle : m.settings.maxIters ≤ cap) :
    (m.withSettings (m.settings.withCap cap)).run observer memory x₀ =
        m.run observer memory x₀ ∧
      (m.withSettings (m.settings.withCap cap)).events observer memory x₀ =
        m.events observer memory x₀ := by
  cases hcheck : m.settings.check with
  | error e => simp [Minimiser.run, Minimiser.oracle, hcheck] at hsol
  | ok u =>
    have horacle : m.oracle = .ok (objective.complete m.settings.step) :=
      oracle_of_check hcheck hobjective
    have horacle' : (m.withSettings (m.settings.withCap cap)).oracle =
        .ok (objective.complete m.settings.step) := by
      simp only [Minimiser.oracle, Minimiser.withSettings, check_withCap hle hcheck, hobjective]
      rfl
    have hrun {τ : Type} {o : Observer (Visit R) τ} {memory : τ}
        (hsol : (m.run o memory x₀).outcome = .ok sol) :
        (m.withSettings (m.settings.withCap cap)).run o memory x₀ = m.run o memory x₀ := by
      rw [run_of_oracle horacle] at hsol ⊢
      have hdescend := descend_of_le hle hsol hclosed
      rw [run_of_oracle horacle']
      simp only [Minimiser.withSettings, hdescend]
      rfl
    refine ⟨hrun hsol, ?_⟩
    have hlogged : (m.run observer.logging (memory, []) x₀).outcome = .ok sol := by
      rw [run_logging m observer memory [] x₀] at hsol
      exact hsol
    rw [Minimiser.events, Minimiser.events, hrun hlogged]

/-- A minimisation of the square by bisection, with coarse tolerances and few rounds. -/
def bisecting : Minimiser Float where
  settings :=
    { maxIters := 8, epsilon := 1, step := 1, delta := Scalar.ratio 1 2, trivialStep := 1,
      search := .bisection, method := .gradientDescent }
  objective? := some square

/-- From one down the slope of the square a single search leads to the solution. Its bracketing
search closes the interval from one to three, and a cap of a hundred changes nothing. -/
theorem run_withCap_bisecting :
    ∃ sol, (bisecting.run .silent () [1]).outcome = .ok sol ∧ sol.iters = 1 ∧
      BracketsClose (square.complete bisecting.settings.step) bisecting.settings [1] 1 ∧
      (bisecting.withSettings (bisecting.settings.withCap 100)).run .silent () [1] =
        bisecting.run .silent () [1] := by
  have hiters : (bisecting.run .silent () [1]).outcome.toOption.map Solution.iters = some 1 := by
    decide +kernel
  have hbracket : ((⟨[1], .steepest⟩ : Standing Float).bracket
      (square.complete bisecting.settings.step) bisecting.settings).toOption.map
        Bracket.closed = some true := by
    decide +kernel
  have hclosed : BracketsClose (square.complete bisecting.settings.step) bisecting.settings [1] 1 := by
    intro _ i hi here b hhere hb
    obtain rfl : i = 0 := by omega
    obtain ⟨hpoint, hguide⟩ := iterate_zero_eq_ok.mp hhere
    obtain ⟨point, guide⟩ := here
    cases hpoint
    cases hguide
    rw [hb] at hbracket
    exact Option.some.inj hbracket
  cases hsol : (bisecting.run .silent () [1]).outcome with
  | error e =>
    rw [hsol] at hiters
    exact nomatch hiters
  | ok sol =>
    rw [hsol] at hiters
    have hone : sol.iters = 1 := Option.some.inj hiters
    refine ⟨sol, rfl, hone, hclosed, ?_⟩
    exact (run_withCap rfl hsol (hone ▸ hclosed) (by decide)).1

end Stepwise.Descent
