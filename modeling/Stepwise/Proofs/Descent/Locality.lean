import Stepwise.Proofs.Descent.Sizes

/-!
# What a descent asks an oracle

A minimisation that starts at a vector of length `n` asks about vectors of that length and
about no others. So it cannot tell two oracles apart that give the same answers there
(`Stepwise.Oracle.SameAt`), whatever they answer elsewhere, or whether they answer at all.

The argument follows the sizes through the calculation as before: every question is put at a
vector that an earlier part has made, and that part has been shown to make vectors of the right
length. What is left of each calculation is then the same
(`Stepwise.Sound.bind_congr`).
-/

namespace Stepwise

variable {R : Type} {n : Nat}

/-- Two oracles give the same answers about vectors of length `n`. -/
structure Oracle.SameAt (n : Nat) (f f' : Oracle R) : Prop where
  /-- The same values. -/
  value : ∀ x, x.length = n → f'.value x = f.value x
  /-- The same gradients. -/
  gradient : ∀ x, x.length = n → f'.gradient x = f.gradient x
  /-- The same Hessians. -/
  hessian : ∀ x, x.length = n → f'.hessian x = f.hessian x

variable [Scalar R]

/-! ### Differences -/

theorem twoSided_congr {α : Type} {g g' : Vec R → Except Fault α}
    (h : ∀ x, x.length = n → g' x = g x) {x : Vec R} (hx : x.length = n) (step : R) :
    twoSided g' x step = twoSided g x step := by
  have hreplace (i : Nat) (a : R) : g' (x.replace i a) = g (x.replace i a) :=
    h _ ((x.length_replace i a).trans hx)
  funext i origin
  simp only [twoSided, hreplace]

/-- Functions with the same values are completed to oracles with the same answers. -/
theorem sameAt_complete {value value' : Vec R → Except Fault R}
    (h : ∀ x, x.length = n → value' x = value x) (step : R) :
    (({ value := value } : Objective R).complete step).SameAt n
      (({ value := value' } : Objective R).complete step) := by
  have hgradient : ∀ x : Vec R, x.length = n →
      centralGradient value' step x = centralGradient value step x := by
    intro x hx
    simp only [centralGradient, alongAxes_eq, twoSided_congr h hx]
  refine ⟨h, hgradient, fun x hx => ?_⟩
  change centralJacobian (centralGradient value' step) step x =
    centralJacobian (centralGradient value step) step x
  simp only [centralJacobian, alongAxes_eq, twoSided_congr hgradient hx]

namespace Descent

variable {σ : Type} {f f' : Oracle R} (hf : f.Fits n) (hsame : f.SameAt n f')

/-! ### Line searches -/

section Rays

variable {r : Ray R} (hr : r.Fits n)

include hr hsame

theorem Ray.Fits.value_congr : r.value f' = r.value f :=
  funext fun t => (hr.point t).bind_congr fun u hu => hsame.value u hu

theorem Ray.Fits.slope_congr : r.slope f' = r.slope f := by
  funext t
  refine (hr.point t).bind_congr fun u hu => ?_
  rw [hsame.gradient u hu]

theorem Ray.Fits.newtonStep_congr (epsilon : R) :
    r.newtonStep f' epsilon = r.newtonStep f epsilon := by
  funext iter t
  refine (hr.point t).lift.bind_congr fun u hu => ?_
  simp only [Ray.curvature, hsame.gradient u hu, hsame.hessian u hu]

omit hr in
theorem lineSearch_local {x p : Vec R} (hx : x.length = n) (hp : p.length = n) (s : Settings R) :
    lineSearch f' s x p = lineSearch f s x p := by
  have hland {find find' : Ray R → Except (Failure (Breakdown R)) (Option (Hit R))}
      (hfind : ∀ r : Ray R, r.Fits n → find' r = find r) :
      landAlong find' s x p = landAlong find s x p :=
    (faultless_ofDirection hx hp).bind_congr fun r hr => by rw [hfind r hr]
  rw [lineSearch, lineSearch]
  cases s.search with
  | trivial => rfl
  | goldenSection =>
    refine hland fun r hr => ?_
    simp only [Ray.reduce, Ray.bracket, hr.value_congr hsame]
  | fibonacci =>
    refine hland fun r hr => ?_
    simp only [Ray.reduce, Ray.bracket, hr.value_congr hsame]
  | newton =>
    refine hland fun r hr => ?_
    simp only [Ray.newton, Ray.slopeRoot, hr.newtonStep_congr hsame]
  | bisection =>
    refine hland fun r hr => ?_
    simp only [Ray.bisect, Ray.bracket, hr.value_congr hsame, hr.slope_congr hsame]

end Rays

/-! ### Descents -/

section Descents

include hsame

theorem start_local {x : Vec R} (hx : x.length = n) (method : Method) :
    Guide.start f' method x = Guide.start f method x := by
  cases method <;> simp only [Guide.start, hsame.gradient x hx]

theorem Standing.Fits.observe_congr {here : Standing R} (h : here.Fits n) (s : Settings R)
    (iter : Nat) : here.observe f' s iter = here.observe f s iter := by
  obtain ⟨point, guide⟩ := here
  have hvalue := hsame.value point h.point
  have hgradient := hsame.gradient point h.point
  cases guide <;> simp only [Standing.observe, Guide.gradient, hvalue, hgradient]

include hf

theorem Standing.Fits.move_congr {here : Standing R} (h : here.Fits n) (s : Settings R)
    (iter : Nat) {g : Vec R} (hg : g.length = n) : here.move f' s iter g = here.move f s iter g := by
  have hdirection : here.guide.direction f' here.point g = here.guide.direction f here.point g := by
    cases here.guide <;> simp only [Guide.direction, hsame.hessian _ h.point]
  have hland : here.land f' s g = here.land f s g := by
    rw [Standing.land, hdirection]
    exact ((h.guide.direction hf h.point hg).mapError _).bind_congr
      fun _ hp => lineSearch_local hsame h.point hp s
  rw [Standing.move, Standing.move, hland]
  have hlanded := h.land hf s hg
  cases hlanding : here.land f s g with
  | error e => rfl
  | ok landing =>
    rw [hlanding] at hlanded
    have hfollow : here.guide.follow f' here.point landing.point =
        here.guide.follow f here.point landing.point := by
      cases here.guide <;> simp only [Guide.follow, hsame.gradient _ hlanded]
    simp only [hfollow]

/-- A round from an iterate that fits is the same round. -/
theorem Progress.next_local (s : Settings R) (observer : Observer (Visit R) σ) (iter : Nat)
    {p : Progress R σ} (h : p.standing.Fits n) :
    p.next f' s observer iter = p.next f s observer iter := by
  rw [Progress.next, Progress.next, h.observe_congr hsame]
  have hseen := h.observe hf s iter
  cases hobserve : p.standing.observe f s iter with
  | error e => rfl
  | ok seen =>
    rw [hobserve] at hseen
    simp only [h.move_congr hf hsame s iter hseen.1]

/-- **A descent from a vector of length `n` asks about vectors of that length only.** -/
theorem descend_local (s : Settings R) (observer : Observer (Visit R) σ) (memory : σ)
    {x₀ : Vec R} (hx₀ : x₀.length = n) :
    descend f' s observer memory x₀ = descend f s observer memory x₀ :=
  descend_eq_of_next (start_local hsame hx₀ s.method) fun i _ hreach =>
    Progress.next_local hf hsame s observer i (hreach.fits hf hx₀)

end Descents

/-- **A minimisation from a vector of length `n` asks its objective about vectors of that length
only**: it is the same for every objective that has the same values there. -/
theorem run_local {value value' : Vec R → Except Fault R}
    (hfits : ({ value := value } : Objective R).Fits n)
    (h : ∀ x, x.length = n → value' x = value x) (m : Minimiser R)
    (observer : Observer (Visit R) σ) (memory : σ) {x₀ : Vec R} (hx₀ : x₀.length = n) :
    (m.withObjective { value := value' }).run observer memory x₀ =
      (m.withObjective { value := value }).run observer memory x₀ :=
  run_eq_of_descend (descend_local (hfits.complete m.settings.step)
    (sameAt_complete h m.settings.step) m.settings observer memory hx₀)

end Descent

end Stepwise
