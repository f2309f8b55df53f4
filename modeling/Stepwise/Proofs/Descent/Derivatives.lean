import Stepwise.Proofs.Descent.Account

/-!
# Derivatives that are not asked for

An oracle can be asked for the value, for the gradient and for the Hessian, and a descent
asks for no more than it needs: the trivial line search and the interval reductions ask for
values only, bisection for the gradient too, and nothing but Newton's method asks for the
Hessian, be it the one that chooses directions or the one on the slope. A derivative that
nobody asks for has no influence, and it may even have no value anywhere.

For a single line search this shows in its definition. A whole descent needs to know that
it never meets a Newton guide unless it started with one: following keeps the kind of the
guide (`Stepwise.Descent.Reaches.method_guide`). So every round of it is the same for two
oracles that differ in the Hessian, and then so is the descent.
-/

namespace Stepwise.Descent

variable {R σ : Type} [Scalar R]

/-- A line search that looks at values only. -/
def LineSearch.ValuesOnly : LineSearch → Prop
  | .trivial | .goldenSection | .fibonacci => True
  | .newton | .bisection => False

/-! ### One line search -/

section Searches

variable {f f' : Oracle R} {s : Settings R}

theorem value_congr (hvalue : f'.value = f.value) (r : Ray R) : r.value f' = r.value f := by
  funext t
  simp only [Ray.value, hvalue]

theorem slope_congr (hgradient : f'.gradient = f.gradient) (r : Ray R) :
    r.slope f' = r.slope f := by
  funext t
  simp only [Ray.slope, hgradient]

theorem bracket_congr (hvalue : f'.value = f.value) (r : Ray R) :
    r.bracket f' s = r.bracket f s := by
  simp only [Ray.bracket, value_congr hvalue]

theorem reduce_congr (hvalue : f'.value = f.value) (rates : Rates R) :
    Ray.reduce rates f' s = Ray.reduce rates f s := by
  funext r
  simp only [Ray.reduce, bracket_congr hvalue, value_congr hvalue]

theorem bisect_congr (hvalue : f'.value = f.value) (hgradient : f'.gradient = f.gradient) :
    Ray.bisect f' s = Ray.bisect f s := by
  funext r
  simp only [Ray.bisect, bracket_congr hvalue, value_congr hvalue, slope_congr hgradient]

/-- **A line search that looks at values only does not depend on the derivatives.** -/
theorem lineSearch_congr_value (hvalue : f'.value = f.value) (hsearch : s.search.ValuesOnly)
    (x p : Vec R) : lineSearch f' s x p = lineSearch f s x p := by
  cases hs : s.search with
  | trivial => simp only [lineSearch, hs]
  | goldenSection => simp only [lineSearch, hs, reduce_congr hvalue]
  | fibonacci => simp only [lineSearch, hs, reduce_congr hvalue]
  | newton =>
    rw [hs] at hsearch
    exact hsearch.elim
  | bisection =>
    rw [hs] at hsearch
    exact hsearch.elim

/-- **No line search but Newton's depends on the Hessian.** -/
theorem lineSearch_congr (hvalue : f'.value = f.value) (hgradient : f'.gradient = f.gradient)
    (hsearch : s.search ≠ .newton) (x p : Vec R) :
    lineSearch f' s x p = lineSearch f s x p := by
  cases hs : s.search with
  | trivial => simp only [lineSearch, hs]
  | goldenSection => simp only [lineSearch, hs, reduce_congr hvalue]
  | fibonacci => simp only [lineSearch, hs, reduce_congr hvalue]
  | newton => exact absurd hs hsearch
  | bisection => simp only [lineSearch, hs, bisect_congr hvalue hgradient]

end Searches

/-! ### The kind of a guide -/

/-- The method that a guide belongs to. -/
def Guide.method : Guide R → Method
  | steepest => .gradientDescent
  | newton => .newton
  | quasiNewton _ _ => .quasiNewton

section Guides

variable {f : Oracle R} {s : Settings R} {x₀ : Vec R}

theorem method_start {method : Method} {guide : Guide R}
    (h : Guide.start f method x₀ = .ok guide) : guide.method = method := by
  cases method with
  | gradientDescent =>
    cases h
    rfl
  | newton =>
    cases h
    rfl
  | quasiNewton =>
    obtain ⟨gradient, -, hguide⟩ := bind_eq_ok.mp h
    cases hguide
    rfl

theorem method_follow {guide guide' : Guide R} {x next : Vec R}
    (h : guide.follow f x next = .ok guide') : guide'.method = guide.method := by
  cases guide with
  | steepest =>
    cases h
    rfl
  | newton =>
    cases h
    rfl
  | quasiNewton gradient inverse =>
    simp only [Guide.follow, bind_eq_ok] at h
    obtain ⟨_, -, _, -, _, -, _, -, hguide⟩ := h
    cases hguide
    rfl

/-- The guide at every iterate belongs to the method of the settings. -/
theorem method_iterate {n : Nat} {here : Standing R} (h : iterate f s x₀ n = .ok here) :
    here.guide.method = s.method := by
  induction n generalizing here with
  | zero => exact method_start (iterate_zero_eq_ok.mp h).2
  | succ n ih =>
    obtain ⟨before, hbefore, hadvance⟩ := iterate_succ_eq_ok.mp h
    obtain ⟨_, _, guide, -, -, hfollow, rfl⟩ := advance_eq_ok.mp hadvance
    exact (method_follow hfollow).trans (ih hbefore)

/-- **A descent keeps to the guides of its method.** -/
theorem Reaches.method_guide {observer : Observer (Visit R) σ} {memory : σ} {n : Nat}
    {p : Progress R σ} (h : Reaches f s observer memory x₀ n p) :
    p.standing.guide.method = s.method :=
  method_iterate h.iterate_eq

end Guides

/-! ### A whole descent -/

section Descents

variable {f f' : Oracle R} {s : Settings R}

variable (f f') in
/-- Only a Newton guide asks the oracle for a direction. -/
theorem direction_congr {guide : Guide R} (hguide : guide.method ≠ .newton) (x gradient : Vec R) :
    guide.direction f' x gradient = guide.direction f x gradient := by
  cases guide with
  | steepest => rfl
  | newton => exact absurd rfl hguide
  | quasiNewton _ inverse => rfl

/-- No guide looks at the Hessian to follow. -/
theorem follow_congr (hgradient : f'.gradient = f.gradient) (guide : Guide R) (x next : Vec R) :
    guide.follow f' x next = guide.follow f x next := by
  cases guide <;> simp only [Guide.follow, hgradient]

theorem start_congr (hgradient : f'.gradient = f.gradient) (method : Method) (x : Vec R) :
    Guide.start f' method x = Guide.start f method x := by
  cases method <;> simp only [Guide.start, hgradient]

theorem observe_congr (hvalue : f'.value = f.value) (hgradient : f'.gradient = f.gradient)
    (iter : Nat) (here : Standing R) : here.observe f' s iter = here.observe f s iter := by
  obtain ⟨point, guide⟩ := here
  cases guide <;> simp only [Standing.observe, Guide.gradient, hvalue, hgradient]

/-- **A round does not depend on the Hessian**, unless it is the round of a Newton guide or
searches by Newton's method. -/
theorem next_congr (hvalue : f'.value = f.value) (hgradient : f'.gradient = f.gradient)
    (hsearch : s.search ≠ .newton) (observer : Observer (Visit R) σ) (iter : Nat)
    {p : Progress R σ} (hguide : p.standing.guide.method ≠ .newton) :
    p.next f' s observer iter = p.next f s observer iter := by
  have hland (gradient : Vec R) :
      p.standing.land f' s gradient = p.standing.land f s gradient := by
    simp only [Standing.land, direction_congr f f' hguide,
      lineSearch_congr hvalue hgradient hsearch]
  simp only [Progress.next, observe_congr hvalue hgradient, Standing.move, hland,
    follow_congr hgradient]

/-- A descent by another method than Newton's, with another line search than Newton's, does
not depend on the Hessian. -/
theorem descend_congr (hvalue : f'.value = f.value) (hgradient : f'.gradient = f.gradient)
    (hsearch : s.search ≠ .newton) (hmethod : s.method ≠ .newton)
    (observer : Observer (Visit R) σ) (memory : σ) (x₀ : Vec R) :
    descend f' s observer memory x₀ = descend f s observer memory x₀ :=
  descend_eq_of_next (start_congr hgradient s.method x₀) fun n _ hreach =>
    next_congr hvalue hgradient hsearch observer n (hreach.method_guide ▸ hmethod)

end Descents

/-! ### Minimisers -/

/-- **Derivatives that are not asked for have no influence**, whatever they are and whether or
not they have a value. For objectives with the same value function this is true of both
derivatives in a line search that looks at values only; and if the supplied gradients are the
same too, it is true of the Hessian in every minimisation in which neither the method nor the
line search is Newton's. -/
theorem unused_derivatives (m : Minimiser R) (f f' : Objective R) (hvalue : f'.value = f.value) :
    (m.settings.search.ValuesOnly → ∀ x p : Vec R,
      (m.withObjective f').search x p = (m.withObjective f).search x p) ∧
    (f'.gradient? = f.gradient? → m.settings.method ≠ .newton → m.settings.search ≠ .newton →
      ∀ (σ : Type) (observer : Observer (Visit R) σ) (memory : σ) (x₀ : Vec R),
        (m.withObjective f').run observer memory x₀ =
          (m.withObjective f).run observer memory x₀ ∧
        (m.withObjective f').events observer memory x₀ =
          (m.withObjective f).events observer memory x₀) := by
  constructor
  · intro hsearch x p
    simp only [Minimiser.search, Minimiser.withObjective, Minimiser.oracle]
    cases m.settings.check with
    | error e => rfl
    | ok _ => exact lineSearch_congr_value hvalue hsearch x p
  · intro hgradient hmethod hsearch
    have hcomplete (h : R) : (f'.complete h).gradient = (f.complete h).gradient := by
      simp only [Objective.complete, hgradient, hvalue]
    have hrun {τ : Type} (observer : Observer (Visit R) τ) (memory : τ) (x₀ : Vec R) :
        (m.withObjective f').run observer memory x₀ =
          (m.withObjective f).run observer memory x₀ :=
      run_eq_of_descend
        (descend_congr hvalue (hcomplete _) hsearch hmethod observer memory x₀)
    intro σ observer memory x₀
    refine ⟨hrun observer memory x₀, ?_⟩
    rw [Minimiser.events, Minimiser.events, hrun]

/-- The square of the length with derivatives that have no value anywhere. -/
def square.broken : Objective R where
  value x := Vec.dot x x
  gradient? := some fun x => .error (.component x.length x.length)
  hessian? := some fun x => .error (.component x.length x.length)

/-- The square of the length with its gradient, and a Hessian that has no value anywhere. -/
def square.bent : Objective R := { square with
  hessian? := some fun x => .error (.component x.length x.length) }

/-- A search for the minimum of the square does not notice that its derivatives have no value,
and a descent does not notice that of its Hessian. -/
theorem unused_derivatives_square :
    ((Minimiser.new : Minimiser Float).withObjective square.broken).search [3, -4] [1, 0] =
      (Minimiser.new.withObjective square).search [3, -4] [1, 0] ∧
    ((Minimiser.new : Minimiser Float).withObjective square.bent).run .silent () [3, -4] =
      (Minimiser.new.withObjective square).run .silent () [3, -4] :=
  ⟨(unused_derivatives Minimiser.new square square.broken rfl).1 trivial [3, -4] [1, 0],
    ((unused_derivatives Minimiser.new square square.bent rfl).2 rfl (by decide) (by decide)
      Unit .silent () [3, -4]).1⟩

end Stepwise.Descent
