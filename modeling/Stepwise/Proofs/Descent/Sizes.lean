import Mathlib.Tactic.SplitIfs
import Stepwise.Proofs.Sizes
import Stepwise.Proofs.Descent.Account

/-!
# Descents among vectors of one length

A minimisation that starts at a vector of length `n` stays among vectors of that length, and
if the objective fits them then nothing in it can meet a fault. It may run out of rounds or
break down, but that it reports.

The searches along a ray calculate with numbers only, so all they need is that the function
and its slope have values. That they do follows for a ray of vectors of length `n`
(`Stepwise.Descent.Ray.Fits`), and then a line search lands on such a vector or reports why not
(`Stepwise.Descent.faultless_lineSearch`). The invariant of the descent is that the iterate has
this length and the guide there holds what fits it: for the quasi-Newton method the gradient
and a square matrix (`Stepwise.Descent.Guide.Fits`), which the update makes of square matrices
again.
-/

namespace Stepwise.Descent

variable {R σ : Type} [Scalar R] {n : Nat}

open Scalar

/-! ### Searches for a parameter -/

section Parameters

variable {φ slope : R → Except Fault R}

theorem total_bracket (hφ : ∀ t, Defined (φ t)) (step : R) (cap : Nat) :
    Defined (Bracket.search φ step cap) := by
  refine (hφ _).bind fun start _ => ?_
  have hround : ∀ (i : Nat) (a : Advance R), True → Total (Round.All (fun _ => True) fun _ => True)
      (a.next φ start) := by
    intro _ a _
    refine (hφ _).bind fun value _ => ?_
    split_ifs <;> trivial
  have hrounds := rounds_sound hround cap 0 (.begin step start) trivial
  split
  · trivial
  · rename_i answer hanswer
    rwa [hanswer] at hrounds

omit [Scalar R] in
theorem total_probe (hφ : ∀ t, Defined (φ t)) (t : R) :
    Defined (Probe.at φ t) :=
  (hφ t).bind fun _ _ => trivial

theorem total_reduction (hφ : ∀ t, Defined (φ t)) (rates : Rates R) (delta : R)
    (cap : Nat) (b : Bracket R) :
    Defined (Reduction.search φ rates delta cap b) := by
  have hstart : Defined (Reduction.start φ rates.first b) :=
    (total_probe hφ _).bind fun _ _ => (total_probe hφ _).bind fun _ _ => trivial
  refine hstart.bind fun s _ => ?_
  have hround : ∀ i (s : Reduction R), True → Total (Round.All (fun _ => True) fun _ => True)
      (s.next φ rates.next (tolerance delta (b.high - b.low)) i) := by
    intro i s _
    have hleft : Defined (s.dropLeft φ) :=
      (total_probe hφ _).bind fun _ _ => trivial
    have hright : Defined (s.dropRight φ) :=
      (total_probe hφ _).bind fun _ _ => trivial
    rw [Reduction.next]
    split_ifs
    · trivial
    · exact hleft.bind fun _ _ => trivial
    · trivial
    · exact hright.bind fun _ _ => trivial
  have hrounds := rounds_sound hround cap 0 s trivial
  split
  · trivial
  · rename_i answer hanswer
    rw [hanswer] at hrounds
    exact Sound.bind hrounds fun _ _ => trivial

theorem total_halving (hφ : ∀ t, Defined (φ t))
    (hslope : ∀ t, Defined (slope t)) (epsilon delta : R) (cap : Nat)
    (b : Bracket R) : Defined (Halving.search φ slope epsilon delta cap b) := by
  refine (hslope _).bind fun leftSlope _ => ?_
  have hround : ∀ i (s : Halving R), True → Total (Round.All (fun _ => True) fun _ => True)
      (s.next φ slope epsilon (tolerance delta (b.high - b.low)) i) := by
    intro i s _
    refine (hslope _).bind fun midSlope _ => ?_
    refine Sound.bind (P := fun _ => True) ?_ fun settled _ => ?_
    · rw [Halving.settled]
      split_ifs
      · trivial
      · exact (hφ _).bind fun _ _ => trivial
    · split_ifs <;> trivial
  have hrounds := rounds_sound hround cap 0
    ⟨b.low, b.high, leftSlope, Halving.middle b.low b.high⟩ trivial
  dsimp only
  split
  · trivial
  · rename_i answer hanswer
    rw [hanswer] at hrounds
    exact Sound.bind hrounds fun _ _ => trivial

end Parameters

/-! ### Line searches -/

/-- A ray of vectors of length `n`. -/
structure Ray.Fits (n : Nat) (r : Ray R) : Prop where
  /-- It starts at one. -/
  origin : r.origin.length = n
  /-- It goes along one. -/
  heading : r.heading.length = n

section Rays

variable {f : Oracle R} {r : Ray R} (hf : f.Fits n) (hr : r.Fits n)

include hr in
theorem Ray.Fits.point (t : R) : Total (·.length = n) (r.point t) :=
  Vec.total_add_scale hr.origin hr.heading t

include hf hr

theorem Ray.Fits.value (t : R) : Defined (r.value f t) :=
  (hr.point t).bind fun u hu => hf.value u hu

theorem Ray.Fits.slope (t : R) : Defined (r.slope f t) :=
  (hr.point t).bind fun u hu => (hf.gradient u hu).bind fun _ hg => Vec.total_dot hg hr.heading

theorem Ray.Fits.curvature {u : Vec R} (hu : u.length = n) :
    Defined (r.curvature f u) :=
  (hf.hessian u hu).bind fun _ hH =>
    (Mat.total_mulVec hH hr.heading).bind fun _ hv => Vec.total_dot hv hr.heading

theorem faultless_slopeRoot (epsilon : R) (cap : Nat) :
    Faultless (fun _ => True) (r.slopeRoot f epsilon cap) := by
  have hround : ∀ i t, True → Faultless (Round.All (fun _ => True) fun _ => True)
      (r.newtonStep f epsilon i t) := by
    intro i t _
    refine (hr.point t).lift.bind fun u hu => ?_
    refine (hf.gradient u hu).lift.bind fun g hg => ?_
    refine (Vec.total_dot hg hr.heading).lift.bind fun slope _ => ?_
    split_ifs
    · trivial
    · refine (hr.curvature hf hu).lift.bind fun curvature _ => ?_
      split_ifs <;> trivial
  have hrounds := rounds_sound hround cap 0 (ofNat 0) trivial
  rw [Ray.slopeRoot]
  split
  · trivial
  · rename_i answer hanswer
    rw [hanswer] at hrounds
    exact Sound.bind hrounds fun _ _ => trivial

theorem Ray.Fits.bracket (s : Settings R) : Defined (r.bracket f s) :=
  total_bracket (hr.value hf) s.step s.maxIters

theorem faultless_reduce (rates : Rates R) (s : Settings R) :
    Faultless (fun _ => True) (Ray.reduce rates f s r) :=
  (hr.bracket hf s).lift.bind fun b _ =>
    (total_reduction (hr.value hf) rates s.delta s.maxIters b).lift

theorem faultless_bisect (s : Settings R) : Faultless (fun _ => True) (Ray.bisect f s r) :=
  (hr.bracket hf s).lift.bind fun b _ =>
    (total_halving (hr.value hf) (hr.slope hf) s.epsilon s.delta s.maxIters b).lift

end Rays

section Searches

variable {f : Oracle R} {x p : Vec R} (hx : x.length = n) (hp : p.length = n)

include hx hp

/-- A direction of length `n` makes a ray, or cannot be made one unit long. -/
theorem faultless_ofDirection :
    Faultless (Ray.Fits n) (Breakdown.fail (Ray.ofDirection x p)) := by
  rw [Ray.ofDirection]
  split_ifs
  · exact ⟨hx, (p.length_divide _).trans hp⟩
  · trivial

theorem faultless_landAlong {find : Ray R → Except (Failure (Breakdown R)) (Option (Hit R))}
    (hfind : ∀ r : Ray R, r.Fits n → Faultless (fun _ => True) (find r)) (s : Settings R) :
    Faultless (·.point.length = n) (landAlong find s x p) := by
  refine (faultless_ofDirection hx hp).bind fun r hr => ?_
  refine ((hfind r hr).mapError _).bind fun hit? _ => ?_
  cases hit? with
  | none => trivial
  | some hit => exact (hr.point hit.t).lift.bind fun _ hu => hu

/-- **A line search lands on a vector of the same length**, or it reports why it does not. -/
theorem faultless_lineSearch (hf : f.Fits n) (s : Settings R) :
    Faultless (·.point.length = n) (lineSearch f s x p) := by
  rw [lineSearch]
  cases s.search with
  | trivial =>
    exact (Vec.total_add_scale hx hp s.trivialStep).lift.bind fun _ hu => hu
  | goldenSection => exact faultless_landAlong hx hp (fun _ hr => faultless_reduce hf hr _ s) s
  | fibonacci => exact faultless_landAlong hx hp (fun _ hr => faultless_reduce hf hr _ s) s
  | newton =>
    exact faultless_landAlong hx hp (fun _ hr => faultless_slopeRoot hf hr _ _) s
  | bisection => exact faultless_landAlong hx hp (fun _ hr => faultless_bisect hf hr s) s

end Searches

/-! ### Guides -/

/-- What a guide holds has the size it should have. -/
def Guide.Fits (n : Nat) : Guide R → Prop
  | steepest => True
  | newton => True
  | quasiNewton gradient inverse => gradient.length = n ∧ inverse.Square n

section Guides

variable {f : Oracle R} (hf : f.Fits n) {x : Vec R} (hx : x.length = n)

theorem faultless_newtonDirection {H : Mat R} (hH : H.Square n) {g : Vec R} (hg : g.length = n) :
    Faultless (·.length = n) (newtonDirection H g) := by
  refine (Mat.total_solve hH (g.length_neg.trans hg)).lift.bind fun direction? hdirection => ?_
  cases direction? with
  | none => trivial
  | some direction =>
    dsimp only
    split_ifs
    · exact hdirection direction rfl
    · trivial

/-- **The update makes a square matrix of a square matrix.** -/
theorem faultless_updateInverse {H : Mat R} (hH : H.Square n) {s y : Vec R} (hs : s.length = n)
    (hy : y.length = n) : Faultless (Mat.Square n) (updateInverse H s y) := by
  refine (Vec.total_dot hs hy).lift.bind fun product _ => ?_
  split_ifs
  · trivial
  · have hidentity : (Mat.identity s.length : Mat R).Square n := hs ▸ Mat.square_identity
    have hleft := Mat.total_combine (· - ·) hidentity ((Mat.square_outer hs hy).divide product)
    refine hleft.lift.bind fun left hleft => ?_
    refine (Mat.total_mul hleft hH).lift.bind fun _ hproduct => ?_
    refine (Mat.total_mul hproduct hleft.transpose).lift.bind fun _ hconjugated => ?_
    exact (Mat.total_combine (· + ·) hconjugated ((Mat.square_outer hs hs).divide product)).lift

include hf hx

theorem total_start (method : Method) : Total (Guide.Fits n) (Guide.start f method x) := by
  cases method with
  | gradientDescent => trivial
  | newton => trivial
  | quasiNewton => exact (hf.gradient x hx).bind fun _ hg => ⟨hg, hx ▸ Mat.square_identity⟩

omit [Scalar R] in
theorem Guide.Fits.gradient {guide : Guide R} (h : guide.Fits n) :
    Total (·.length = n) (guide.gradient f x) := by
  cases guide with
  | steepest => exact hf.gradient x hx
  | newton => exact hf.gradient x hx
  | quasiNewton gradient inverse => exact h.1

theorem Guide.Fits.direction {guide : Guide R} (h : guide.Fits n) {g : Vec R}
    (hg : g.length = n) : Faultless (·.length = n) (guide.direction f x g) := by
  cases guide with
  | steepest => exact g.length_neg.trans hg
  | newton => exact (hf.hessian x hx).lift.bind fun _ hH => faultless_newtonDirection hH hg
  | quasiNewton gradient inverse =>
    exact (Mat.total_mulVec h.2 hg).lift.bind fun v hv => v.length_neg.trans hv

theorem Guide.Fits.follow {guide : Guide R} (h : guide.Fits n) {next : Vec R}
    (hnext : next.length = n) : Faultless (Guide.Fits n) (guide.follow f x next) := by
  cases guide with
  | steepest => trivial
  | newton => trivial
  | quasiNewton gradient inverse =>
    refine (hf.gradient next hnext).lift.bind fun nextGradient hgradient => ?_
    refine (Vec.total_combine (· - ·) hnext hx).lift.bind fun s hs => ?_
    refine (Vec.total_combine (· - ·) hgradient h.1).lift.bind fun y hy => ?_
    exact (faultless_updateInverse h.2 hs hy).bind fun _ hH => ⟨hgradient, hH⟩

end Guides

/-! ### Descents -/

/-- An iterate of length `n` with a guide that fits it. -/
structure Standing.Fits (n : Nat) (here : Standing R) : Prop where
  /-- The iterate has that length. -/
  point : here.point.length = n
  /-- The guide fits. -/
  guide : here.guide.Fits n

section Descents

variable {f : Oracle R} (hf : f.Fits n) (s : Settings R)

include hf

theorem Standing.Fits.observe {here : Standing R} (h : here.Fits n) (iter : Nat) :
    Total (fun seen => seen.1.length = n ∧ seen.2.point.length = n) (here.observe f s iter) :=
  (h.guide.gradient hf h.point).bind fun _ hg =>
    (hf.value here.point h.point).bind fun _ _ => ⟨hg, h.point⟩

theorem Standing.Fits.land {here : Standing R} (h : here.Fits n) {g : Vec R} (hg : g.length = n) :
    Faultless (·.point.length = n) (here.land f s g) :=
  ((h.guide.direction hf h.point hg).mapError _).bind fun _ hp =>
    faultless_lineSearch h.point hp hf s

/-- The next iterate fits as well. -/
theorem Standing.Fits.move {here : Standing R} (h : here.Fits n) (iter : Nat) {g : Vec R}
    (hg : g.length = n) : Faultless (Standing.Fits n) (here.move f s iter g).2 := by
  have hland := h.land hf s hg
  rw [Standing.move]
  cases hlanding : here.land f s g with
  | error e => rwa [hlanding] at hland
  | ok landing =>
    rw [hlanding] at hland
    have hfollow := h.guide.follow hf h.point hland
    dsimp only
    cases hguide : here.guide.follow f here.point landing.point with
    | error e =>
      rw [hguide] at hfollow
      cases e with
      | fault fault => exact hfollow.elim
      | error cause => trivial
    | ok guide =>
      rw [hguide] at hfollow
      exact ⟨hland, hfollow⟩

/-- **A round goes on from an iterate that fits, or it ends with a report without a fault.** -/
theorem Progress.next_fits (observer : Observer (Visit R) σ) (iter : Nat) {p : Progress R σ}
    (h : p.standing.Fits n) :
    (p.next f s observer iter).All (·.standing.Fits n)
      (Faultless (·.point.length = n) ·.outcome) := by
  have hseen := h.observe hf s iter
  obtain ⟨r, hr⟩ : ∃ r, p.next f s observer iter = r := ⟨_, rfl⟩
  rw [hr]
  cases passage_iff.mpr hr with
  | fault hobserve =>
    rw [hobserve] at hseen
    exact hseen.elim
  | ending hobserve hending =>
    rw [hobserve] at hseen
    exact hseen.2
  | failure hobserve hending hmove =>
    rw [hobserve] at hseen
    have hmoved := h.move hf s iter hseen.1
    rwa [hmove] at hmoved
  | onward hobserve hending hmove =>
    rw [hobserve] at hseen
    have hmoved := h.move hf s iter hseen.1
    rwa [hmove] at hmoved

variable {s} in
/-- **Every iterate fits.** -/
theorem Reaches.fits {observer : Observer (Visit R) σ} {memory : σ} {x₀ : Vec R}
    (hx₀ : x₀.length = n) {i : Nat} {p : Progress R σ}
    (h : Reaches f s observer memory x₀ i p) : p.standing.Fits n := by
  obtain ⟨guide, hguide, hrounds⟩ := h
  have hstart := total_start hf hx₀ s.method
  rw [hguide] at hstart
  refine rounds_invariant (P := fun p => p.standing.Fits n) ⟨hx₀, hstart⟩
    (fun iter before next hbefore hnext => ?_) hrounds
  have hround := Progress.next_fits hf s observer iter hbefore
  rwa [hnext] at hround

/-- **A descent from a vector of length `n` meets no fault**, and what it finds has that
length. -/
theorem faultless_descend (observer : Observer (Visit R) σ) (memory : σ) {x₀ : Vec R}
    (hx₀ : x₀.length = n) :
    Faultless (·.point.length = n) (descend f s observer memory x₀).outcome := by
  obtain ⟨report, hreport⟩ : ∃ report, descend f s observer memory x₀ = report := ⟨_, rfl⟩
  have hjourney := journey_descend f s observer memory x₀
  rw [hreport] at hjourney ⊢
  cases hjourney with
  | start hguide =>
    have hstart := total_start hf hx₀ s.method
    rw [hguide] at hstart
    exact hstart.elim
  | @last i p _ hi hreach hlast =>
    have hround := Progress.next_fits hf s observer i (hreach.fits hf hx₀)
    rwa [hlast] at hround
  | cap hreach => trivial

end Descents

/-! ### Minimisers -/

section Minimisers

variable {m : Minimiser R} (hm : ∀ f, m.objective? = some f → f.Fits n)

include hm

/-- The completed objective fits, if there is one. -/
theorem Minimiser.oracle_fits {f : Oracle R} (h : m.oracle = .ok f) : f.Fits n := by
  rw [Minimiser.oracle] at h
  cases hcheck : m.settings.check with
  | error e => simp [hcheck] at h
  | ok _ =>
    cases hobjective : m.objective? with
    | none => simp [hcheck, hobjective] at h
    | some objective =>
      simp only [hcheck, hobjective] at h
      cases h
      exact (hm objective hobjective).complete _

/-- **A minimisation meets no fault**, and the point it finds is as long as the first. -/
theorem Minimiser.faultless_run (observer : Observer (Visit R) σ) (memory : σ) {x₀ : Vec R}
    (hx₀ : x₀.length = n) :
    Faultless (·.point.length = n) (m.run observer memory x₀).outcome := by
  rw [Minimiser.run]
  cases horacle : m.oracle with
  | error e => trivial
  | ok f => exact faultless_descend (Minimiser.oracle_fits hm horacle) _ observer memory hx₀

/-- **A line search of a minimiser meets no fault**, and it lands on a point of the same
length. -/
theorem Minimiser.faultless_search {x p : Vec R} (hx : x.length = n) (hp : p.length = n) :
    Faultless (·.point.length = n) (m.search x p) := by
  rw [Minimiser.search]
  cases horacle : m.oracle with
  | error e => trivial
  | ok f => exact faultless_lineSearch hx hp (Minimiser.oracle_fits hm horacle) _

end Minimisers

end Stepwise.Descent
