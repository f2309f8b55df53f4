import Mathlib.LinearAlgebra.Matrix.DotProduct
import Stepwise.Proofs.Faultless
import Stepwise.Proofs.Doubles.Arithmetic
import Stepwise.Proofs.Descent.Derivatives
import Stepwise.Proofs.Descent.Directions
import Stepwise.Proofs.Descent.Unobserved

/-!
# Errors name their cause

An error of a minimisation says which loop ran out of rounds, or which quotient had no
meaning. What it says is true. The loop is the descent itself or the line search of the
settings, and the number in a breakdown is one that cannot be divided by: it is zero, or it
is not finite. Which of the breakdowns are possible is a matter of the method and the line
search. They are collected along the way, from the line search
(`Stepwise.Descent.reports_lineSearch`) over the step to the next iterate
(`Stepwise.Descent.reports_advance`) to the whole descent
(`Stepwise.Descent.cause_of_descend`).

That the length of a direction is zero where it is finite and not positive is a fact about
square roots (`Stepwise.Scalar.SoundRoots`).

In exact arithmetic a direction without length is a direction that vanishes. Gradient descent
and Newton's method never come to that: they ask for a direction only where the gradient is
longer than the tolerance, and their direction vanishes with the gradient only
(`Stepwise.Descent.gradient_eq_zero_of_direction`).
-/

namespace Stepwise

open Scalar

/-! ### Errors of a kind -/

section Kinds

variable {ε δ α β : Type} {Q : ε → Prop}

/-- What is true of a failure if it is an error that is reported. -/
def Failure.OfKind (Q : ε → Prop) : Failure ε → Prop
  | .fault _ => True
  | .error e => Q e

/-- If the calculation reports an error, then one of this kind. -/
abbrev Reports (Q : ε → Prop) (x : Except (Failure ε) α) : Prop :=
  Sound (Failure.OfKind Q) (fun _ => True) x

theorem Reports.of_eq {x : Except (Failure ε) α} (h : Reports Q x) {e : ε}
    (he : x = .error (.error e)) : Q e := by
  rwa [he] at h

theorem Reports.imp {Q' : ε → Prop} {x : Except (Failure ε) α} (hx : Reports Q x)
    (h : ∀ e, Q e → Q' e) : Reports Q' x := by
  rcases x with (fault | e) | a
  · trivial
  · exact h e hx
  · trivial

/-- The second part is looked at only if the first has a value. -/
theorem Reports.bind {x : Except (Failure ε) α} {f : α → Except (Failure ε) β} (hx : Reports Q x)
    (hf : ∀ a, x = .ok a → Reports Q (f a)) : Reports Q (x >>= f) := by
  cases x with
  | error e => exact hx
  | ok a => exact hf a rfl

variable (Q) in
/-- A calculation that can only meet faults reports nothing. -/
theorem reports_lift (x : Except Fault α) : Reports Q (liftM x : Except (Failure ε) α) := by
  cases x <;> trivial

theorem Reports.mapError {P : δ → Prop} {x : Except (Failure δ) α} {g : δ → ε} (hx : Reports P x)
    (hg : ∀ e, P e → Q (g e)) : Reports Q (x.mapError (Failure.map g)) := by
  rcases x with (fault | e) | a
  · trivial
  · exact hg e hx
  · trivial

end Kinds

/-! ### Numbers that cannot be divided by -/

namespace Scalar

/-- The number is zero, or it is not finite. -/
def Unusable {R : Type} [Scalar R] (v : R) : Prop := (v == ofNat 0) = true ∨ isFinite v = false

theorem unusable_iff {R : Type} [Scalar R] {v : R} :
    (v == ofNat 0 || !isFinite v) = true ↔ Unusable v := by
  rw [Bool.or_eq_true, Bool.not_eq_true', Unusable]

/-- Scalars on which a finite square root that is not positive is zero. -/
class SoundRoots (R : Type) [Scalar R] : Prop where
  /-- There is no negative root. -/
  beq_zero (a : R) : isFinite (sqrt a) = true → ¬ofNat 0 < sqrt a → (sqrt a == ofNat 0) = true

instance : SoundRoots ℝ where
  beq_zero a _ hpos := by
    rw [ofNat_real, Nat.cast_zero, sqrt_real, not_lt] at hpos
    simpa using le_antisymm hpos (Real.sqrt_nonneg a)

instance : SoundRoots Float where
  beq_zero a hfinite hpos := by
    have hzero : Double.units (ofNat 0 : Float) = 0 := by decide +kernel
    have hnan : ¬(ofNat 0 : Float).isNaN := by decide +kernel
    have hroot : ¬a.sqrt.isNaN := Double.not_isNaN_of_isFinite hfinite
    have hnonneg := Double.units_sqrt_nonneg a
    refine Double.beq_iff.mpr ⟨hroot, hnan, ?_⟩
    by_contra hne
    refine hpos (Double.lt_iff.mpr ⟨hnan, hroot, ?_⟩)
    rw [hzero] at hne ⊢
    exact lt_of_le_of_ne hnonneg (Ne.symm hne)

end Scalar

namespace Descent

variable {R σ : Type} [Scalar R] {f : Oracle R} {s : Settings R}

/-! ### Line searches -/

/-- How a line search from `x` in direction `p` can fail. -/
inductive SearchCause (s : Settings R) (x p : Vec R) : Error R → Prop
  /-- The direction cannot be made one unit long. -/
  | direction {cause : Breakdown R} (hsearch : s.search ≠ .trivial)
      (hray : Ray.ofDirection x p = .error cause) : SearchCause s x p (.breakdown cause)
  /-- The curvature along the direction cannot be divided by. -/
  | curvature {v : R} (hsearch : s.search = .newton) (hv : Unusable v) :
      SearchCause s x p (.breakdown (.curvature v))
  /-- The rounds are used up. -/
  | exhausted (hsearch : s.search ≠ .trivial) :
      SearchCause s x p (.notConverged (.search s.search) s.maxIters)

theorem reports_newtonStep (r : Ray R) (f : Oracle R) (epsilon : R) (iter : Nat) (t : R) :
    Reports (fun cause => ∃ v, cause = .curvature v ∧ Unusable v)
      (r.newtonStep f epsilon iter t) := by
  refine (reports_lift _ _).bind fun point _ => ?_
  refine (reports_lift _ _).bind fun gradient _ => ?_
  refine (reports_lift _ _).bind fun slope _ => ?_
  split
  · trivial
  · refine (reports_lift _ _).bind fun curvature _ => ?_
    split
    · rename_i hunusable
      exact ⟨curvature, rfl, unusable_iff.mp hunusable⟩
    · trivial

/-- Newton's method along a ray fails only for want of curvature. -/
theorem reports_slopeRoot (r : Ray R) (f : Oracle R) (epsilon : R) (cap : Nat) :
    Reports (fun cause => ∃ v, cause = .curvature v ∧ Unusable v) (r.slopeRoot f epsilon cap) := by
  have hround : ∀ i t, True → Sound (Failure.OfKind fun cause => ∃ v, cause = .curvature v ∧
      Unusable v) (Round.All (fun _ => True) fun _ => True) (r.newtonStep f epsilon i t) :=
    fun i t _ => Sound.imp (reports_newtonStep r f epsilon i t) fun round _ => by
      cases round <;> trivial
  have hrounds := rounds_sound hround cap 0 (ofNat 0) trivial
  rw [Ray.slopeRoot]
  split
  · trivial
  · rename_i answer hanswer
    rw [hanswer] at hrounds
    exact Sound.bind hrounds fun _ _ => trivial

/-- A search along a unit direction fails as its parts do. -/
theorem reports_landAlong {x p : Vec R}
    {find : Ray R → Except (Failure (Breakdown R)) (Option (Hit R))}
    (hsearch : s.search ≠ .trivial)
    (hfind : ∀ r, Reports (fun cause => SearchCause s x p (.breakdown cause)) (find r)) :
    Reports (SearchCause s x p) (landAlong find s x p) := by
  refine Reports.bind ?_ fun ray _ => Reports.bind ((hfind ray).mapError fun _ h => h) ?_
  · cases hray : Ray.ofDirection x p with
    | error cause => exact .direction hsearch hray
    | ok ray => trivial
  · rintro (_ | hit) -
    · exact .exhausted hsearch
    · exact (reports_lift _ _).bind fun _ _ => trivial

/-- **How a line search fails.** -/
theorem reports_lineSearch (f : Oracle R) (s : Settings R) (x p : Vec R) :
    Reports (SearchCause s x p) (lineSearch f s x p) := by
  have hbracket {α : Type} (r : Ray R) (g : Bracket R → Except Fault α) :
      Reports (fun cause => SearchCause s x p (.breakdown cause)) (do
        let bracket ← r.bracket f s
        g bracket) :=
    (reports_lift _ _).bind fun _ _ => reports_lift _ _
  cases hs : s.search with
  | trivial =>
    simp only [lineSearch, hs]
    exact (reports_lift _ _).bind fun _ _ => trivial
  | goldenSection =>
    simp only [lineSearch, hs]
    exact reports_landAlong (by simp [hs]) fun r => hbracket r _
  | fibonacci =>
    simp only [lineSearch, hs]
    exact reports_landAlong (by simp [hs]) fun r => hbracket r _
  | newton =>
    simp only [lineSearch, hs]
    refine reports_landAlong (by simp [hs]) fun r => ?_
    refine (reports_slopeRoot r f s.epsilon s.maxIters).imp ?_
    rintro _ ⟨v, rfl, hv⟩
    exact .curvature hs hv
  | bisection =>
    simp only [lineSearch, hs]
    exact reports_landAlong (by simp [hs]) fun r => hbracket r _

/-! ### Directions and updates -/

theorem reports_newtonDirection (hessian : Mat R) (gradient : Vec R) :
    Reports (· = .singularHessian) (newtonDirection hessian gradient) := by
  refine (reports_lift _ _).bind fun direction? _ => ?_
  cases direction? with
  | none => exact rfl
  | some direction =>
    dsimp only
    split
    · trivial
    · exact rfl

/-- Only a Newton guide can fail to have a direction. -/
theorem reports_direction (f : Oracle R) (x gradient : Vec R) (guide : Guide R) :
    Reports (fun cause => guide.method = .newton ∧ cause = .singularHessian)
      (guide.direction f x gradient) := by
  cases guide with
  | steepest => trivial
  | newton =>
    refine (reports_lift _ _).bind fun hessian _ => ?_
    exact (reports_newtonDirection hessian gradient).imp fun _ h => ⟨rfl, h⟩
  | quasiNewton _ inverse => exact (reports_lift _ _).bind fun _ _ => trivial

/-- The update fails only for want of curvature. -/
theorem reports_updateInverse (inverse : Mat R) (u y : Vec R) :
    Reports (fun cause => ∃ v, cause = .curvaturePair v ∧ Unusable v)
      (updateInverse inverse u y) := by
  refine (reports_lift _ _).bind fun product _ => ?_
  split
  · rename_i hunusable
    exact ⟨product, rfl, unusable_iff.mp hunusable⟩
  · refine (reports_lift _ _).bind fun left _ => (reports_lift _ _).bind fun halfway _ => ?_
    exact (reports_lift _ _).bind fun _ _ => reports_lift _ _

/-- Only a quasi-Newton guide can fail to follow. -/
theorem reports_follow (f : Oracle R) (x next : Vec R) (guide : Guide R) :
    Reports (fun cause => guide.method = .quasiNewton ∧
      ∃ v, cause = .curvaturePair v ∧ Unusable v) (guide.follow f x next) := by
  cases guide with
  | steepest => trivial
  | newton => trivial
  | quasiNewton gradient inverse =>
    refine (reports_lift _ _).bind fun nextGradient _ => ?_
    refine (reports_lift _ _).bind fun u _ => (reports_lift _ _).bind fun y _ => ?_
    refine Reports.bind ?_ fun _ _ => trivial
    exact (reports_updateInverse inverse u y).imp fun _ h => ⟨rfl, h⟩

/-! ### The way to the next iterate -/

/-- How the way on from an iterate can fail. -/
inductive WayCause (f : Oracle R) (s : Settings R) (here : Standing R) : Error R → Prop
  /-- The Hessian does not say where to go. -/
  | singularHessian (hmethod : here.guide.method = .newton) :
      WayCause f s here (.breakdown .singularHessian)
  /-- The line search fails, in the direction that the guide has chosen. -/
  | search {gradient direction : Vec R} {e : Error R}
      (hgradient : f.gradient here.point = .ok gradient)
      (hdirection : here.guide.direction f here.point gradient = .ok direction)
      (hsearch : SearchCause s here.point direction e) : WayCause f s here e
  /-- The curvature along the step cannot be divided by. -/
  | curvaturePair {v : R} (hmethod : here.guide.method = .quasiNewton) (hv : Unusable v) :
      WayCause f s here (.breakdown (.curvaturePair v))

/-- **How the way on fails.** -/
theorem reports_advance (f : Oracle R) (s : Settings R) (here : Standing R) :
    Reports (WayCause f s here) (here.advance f s) := by
  refine (reports_lift _ _).bind fun gradient hgradient => Reports.bind ?_ fun landing _ => ?_
  · refine Reports.bind ((reports_direction f here.point gradient here.guide).mapError ?_)
      fun direction hdirection => ?_
    · rintro _ ⟨hmethod, rfl⟩
      exact .singularHessian hmethod
    · refine (reports_lineSearch f s here.point direction).imp fun e hsearch => ?_
      exact .search (Failure.ofFault_eq_ok.mp hgradient) (mapError_eq_ok.mp hdirection) hsearch
  · refine Reports.bind ((reports_follow f here.point landing.point here.guide).mapError ?_)
      fun _ _ => trivial
    rintro _ ⟨hmethod, v, rfl, hv⟩
    exact .curvaturePair hmethod hv

/-! ### The whole descent -/

/-- How a descent can fail. -/
inductive DescentCause (f : Oracle R) (s : Settings R) : Error R → Prop
  /-- The rounds are used up. -/
  | exhausted : DescentCause f s (.notConverged (.method s.method) s.maxIters)
  /-- There is no way on from an iterate where the gradient is longer than the tolerance. -/
  | way {here : Standing R} {gradient : Vec R} {e : Error R}
      (hmethod : here.guide.method = s.method) (hgradient : f.gradient here.point = .ok gradient)
      (hlong : ¬gradient.norm ≤ s.epsilon) (hway : WayCause f s here e) : DescentCause f s e

/-- **How a descent fails.** -/
theorem cause_of_descend {observer : Observer (Visit R) σ} {memory : σ} {x₀ : Vec R} {e : Error R}
    (h : (descend f s observer memory x₀).outcome = .error (.error e)) : DescentCause f s e := by
  cases hreport : descend f s observer memory x₀ with
  | mk outcome observed journal =>
  have hjourney := journey_descend f s observer memory x₀
  rw [hreport] at h hjourney
  cases hjourney with
  | start hstart => exact nomatch h
  | cap hreach =>
    cases h
    exact .exhausted
  | last hn hreach hlast =>
    cases passage_iff.mpr hlast with
    | fault hobserve => exact nomatch h
    | ending hobserve hending => exact nomatch h
    | @failure gradient event entries failure hobserve hending hmove =>
      cases h
      obtain ⟨hgradient, hvisit⟩ := observe_iterate hreach.iterate_eq hobserve
      obtain ⟨here, gradient', _, hhere, hgradient', -, rfl⟩ := visit_eq_ok.mp hvisit
      cases hhere.symm.trans hreach.iterate_eq
      cases hgradient'.symm.trans hgradient
      refine .way hreach.method_guide hgradient (ending?_eq_none.mp hending).1 ?_
      refine (reports_advance f s _).of_eq ?_
      rw [← move_snd hgradient, hmove]

/-- What an error of a descent says, and what is true if it says so. -/
inductive Truthful (s : Settings R) : Error R → Prop
  /-- The descent used up its rounds. -/
  | method : Truthful s (.notConverged (.method s.method) s.maxIters)
  /-- The line search used up its rounds; the trivial one makes none. -/
  | search (hsearch : s.search ≠ .trivial) :
      Truthful s (.notConverged (.search s.search) s.maxIters)
  /-- The Hessian is singular, and it is Newton's method that asks for it. -/
  | singularHessian (hmethod : s.method = .newton) : Truthful s (.breakdown .singularHessian)
  /-- The quasi-Newton update cannot divide by the number that is named. -/
  | curvaturePair {v : R} (hmethod : s.method = .quasiNewton) (hv : Unusable v) :
      Truthful s (.breakdown (.curvaturePair v))
  /-- The Newton line search cannot divide by the number that is named. -/
  | curvature {v : R} (hsearch : s.search = .newton) (hv : Unusable v) :
      Truthful s (.breakdown (.curvature v))
  /-- A line search that makes its direction one unit long cannot divide by the number that is
  named. -/
  | direction {v : R} (hsearch : s.search ≠ .trivial) (hv : Unusable v) :
      Truthful s (.breakdown (.direction v))

/-- A direction that cannot be made one unit long has a length that cannot be divided by. -/
theorem ofDirection_eq_error {x p : Vec R} {cause : Breakdown R} :
    Ray.ofDirection x p = .error cause ↔
      ¬(ofNat 0 < p.norm ∧ isFinite p.norm = true) ∧ .direction p.norm = cause := by
  simp only [Ray.ofDirection, Bool.and_eq_true, decide_eq_true_eq]
  split_ifs with h
  · simp [h]
  · rw [Except.error.injEq, and_iff_right h]

theorem unusable_norm [SoundRoots R] {p : Vec R}
    (h : ¬(ofNat 0 < p.norm ∧ isFinite p.norm = true)) : Unusable p.norm := by
  cases hfinite : isFinite p.norm with
  | false => exact .inr hfinite
  | true => exact .inl (SoundRoots.beq_zero _ hfinite fun hpos => h ⟨hpos, hfinite⟩)

theorem SearchCause.truthful [SoundRoots R] {x p : Vec R} {e : Error R}
    (h : SearchCause s x p e) : Truthful s e := by
  cases h with
  | direction hsearch hray =>
    obtain ⟨hlength, rfl⟩ := ofDirection_eq_error.mp hray
    exact .direction hsearch (unusable_norm hlength)
  | curvature hsearch hv => exact .curvature hsearch hv
  | exhausted hsearch => exact .search hsearch

/-- **What the error of a descent says is true.** -/
theorem DescentCause.truthful [SoundRoots R] {e : Error R} (h : DescentCause f s e) :
    Truthful s e := by
  cases h with
  | exhausted => exact .method
  | way hmethod hgradient hlong hway =>
    cases hway with
    | singularHessian hguide => exact .singularHessian (hmethod ▸ hguide)
    | search _ _ hsearch => exact hsearch.truthful
    | curvaturePair hguide hv => exact .curvaturePair (hmethod ▸ hguide) hv

/-! ### Exact arithmetic -/

section Exact

open Matrix

variable {f : Oracle ℝ} {s : Settings ℝ} {n : ℕ}

/-- Only the zero vector cannot be made one unit long. -/
theorem eq_zero_of_ofDirection {x : Vec ℝ} {p : Fin n → ℝ} {cause : Breakdown ℝ}
    (h : Ray.ofDirection x (List.ofFn p) = .error cause) : p = 0 := by
  obtain ⟨hlength, -⟩ := ofDirection_eq_error.mp h
  rw [Vec.norm_ofFn, ofNat_real, Nat.cast_zero, Scalar.isFinite_real, and_iff_left rfl,
    Real.sqrt_pos, not_lt] at hlength
  have hnonneg : 0 ≤ p ⬝ᵥ p := Finset.sum_nonneg fun i _ => mul_self_nonneg (p i)
  exact dotProduct_self_eq_zero.mp (le_antisymm hlength hnonneg)

/-- **Where the direction of gradient descent or Newton's method cannot be made one unit long,
the gradient vanishes.** -/
theorem gradient_eq_zero_of_direction {guide : Guide ℝ} (hguide : guide.method ≠ .quasiNewton)
    {x y direction : Vec ℝ} {g : Fin n → ℝ} {cause : Breakdown ℝ}
    (hdirection : guide.direction f x (List.ofFn g) = .ok direction)
    (hray : Ray.ofDirection y direction = .error cause) : g = 0 := by
  cases guide with
  | steepest =>
    cases hdirection
    rw [Vec.neg_ofFn] at hray
    exact neg_eq_zero.mp (eq_zero_of_ofDirection hray)
  | newton =>
    obtain ⟨hessian, -, hsolved⟩ := bind_eq_ok.mp hdirection
    obtain ⟨A, v, -, rfl, hv⟩ := newtonDirection_ofFn hsolved
    rw [eq_zero_of_ofDirection hray, mulVec_zero] at hv
    exact neg_eq_zero.mp hv.symm
  | quasiNewton gradient inverse => exact absurd rfl hguide

/-- In exact arithmetic gradient descent and Newton's method do not fail for want of a
direction. -/
theorem DescentCause.ne_direction (hepsilon : 0 ≤ s.epsilon) (hmethod : s.method ≠ .quasiNewton)
    {e : Error ℝ} (h : DescentCause f s e) (v : ℝ) : e ≠ .breakdown (.direction v) := by
  rintro rfl
  cases h with
  | @way here gradient _ hguide hgradient hlong hway =>
    cases hway with
    | search hgradient' hdirection hsearch =>
      cases hsearch with
      | direction _ hray =>
        cases hgradient.symm.trans hgradient'
        obtain ⟨n, hn⟩ : ∃ n, gradient.length = n := ⟨_, rfl⟩
        obtain ⟨g, rfl⟩ := Vec.exists_eq_ofFn hn
        have hzero := gradient_eq_zero_of_direction (hguide ▸ hmethod) hdirection hray
        refine hlong ?_
        rw [hzero, Vec.norm_ofFn, zero_dotProduct, Real.sqrt_zero]
        exact hepsilon

end Exact

/-! ### Minimisers -/

/-- What an error of a minimisation says, and what is true if it says so. -/
inductive Cause (m : Minimiser R) : Error R → Prop
  /-- The settings do not pass the check, for the reason that is named. -/
  | settings {e : SettingsError} (hcheck : m.settings.check = .error e) : Cause m (.settings e)
  /-- The settings pass, but there is nothing to minimise. -/
  | unbound (hcheck : m.settings.check = .ok ()) (hobjective : m.objective? = none) :
      Cause m .unbound
  /-- The settings pass and there is something to minimise, but the descent fails. -/
  | descent {objective : Objective R} {e : Error R} (hcheck : m.settings.check = .ok ())
      (hobjective : m.objective? = some objective) (htruthful : Truthful m.settings e) : Cause m e

/-- An error of a minimisation comes from the settings, from the want of an objective, or from
the descent. -/
theorem error_cases {m : Minimiser R} {observer : Observer (Visit R) σ} {memory : σ} {x₀ : Vec R}
    {e : Error R} (h : (m.run observer memory x₀).outcome = .error (.error e)) :
    (∃ reason, m.settings.check = .error reason ∧ e = .settings reason) ∨
      (m.settings.check = .ok () ∧ m.objective? = none ∧ e = .unbound) ∨
      ∃ objective, m.settings.check = .ok () ∧ m.objective? = some objective ∧
        DescentCause (objective.complete m.settings.step) m.settings e := by
  cases hcheck : m.settings.check with
  | error reason =>
    simp only [Minimiser.run, Minimiser.oracle, hcheck] at h
    cases h
    exact .inl ⟨reason, rfl, rfl⟩
  | ok u =>
    cases hobjective : m.objective? with
    | none =>
      simp only [Minimiser.run, Minimiser.oracle, hcheck, hobjective] at h
      cases h
      exact .inr (.inl ⟨rfl, rfl, rfl⟩)
    | some objective =>
      simp only [Minimiser.run, Minimiser.oracle, hcheck, hobjective] at h
      exact .inr (.inr ⟨objective, rfl, rfl, cause_of_descend h⟩)

theorem cause_of_run [SoundRoots R] {m : Minimiser R} {observer : Observer (Visit R) σ}
    {memory : σ} {x₀ : Vec R} {e : Error R}
    (h : (m.run observer memory x₀).outcome = .error (.error e)) : Cause m e := by
  rcases error_cases h with ⟨reason, hcheck, rfl⟩ | ⟨hcheck, hobjective, rfl⟩ |
    ⟨objective, hcheck, hobjective, hdescent⟩
  · exact .settings hcheck
  · exact .unbound hcheck hobjective
  · exact .descent hcheck hobjective hdescent.truthful

/-- **Errors name their cause**, over doubles and in exact arithmetic, whatever the objective,
the starting point and the observer. In exact arithmetic gradient descent and Newton's method
moreover never fail for want of a direction. -/
theorem run_error_cause {σ : Type} :
    (∀ (m : Minimiser Float) (observer : Observer (Visit Float) σ) (memory : σ) (x₀ : Vec Float)
      (e : Error Float),
      (m.run observer memory x₀).outcome = .error (.error e) → Cause m e) ∧
    ∀ (m : Minimiser ℝ) (observer : Observer (Visit ℝ) σ) (memory : σ) (x₀ : Vec ℝ) (e : Error ℝ),
      (m.run observer memory x₀).outcome = .error (.error e) →
        Cause m e ∧ (m.settings.method ≠ .quasiNewton → ∀ v, e ≠ .breakdown (.direction v)) := by
  refine ⟨fun m observer memory x₀ e h => cause_of_run h,
    fun m observer memory x₀ e h => ⟨cause_of_run h, fun hmethod v => ?_⟩⟩
  rcases error_cases h with ⟨reason, -, rfl⟩ | ⟨-, -, rfl⟩ | ⟨objective, hcheck, -, hdescent⟩
  · exact nofun
  · exact nofun
  · have hepsilon := (check_eq_ok_iff.mp hcheck).2.1.2
    rw [ofNat_real, Nat.cast_zero, not_lt] at hepsilon
    exact hdescent.ne_direction hepsilon hmethod v

/-- The first component, with its derivatives: it has no minimum. -/
def ramp : Objective R where
  value x := x.component 0
  gradient? := some fun _ => .ok [ofNat 1]
  hessian? := some fun _ => .ok (Mat.outer [ofNat 0] [ofNat 0])

variable (R) in
/-- A minimisation of the first component by Newton's method. -/
def climbing : Minimiser R where
  settings :=
    { maxIters := 8, epsilon := ofNat 0, step := ofNat 1, delta := ofNat 0, trivialStep := ofNat 1,
      search := .newton, method := .newton }
  objective? := some ramp

/-- In exact arithmetic the Hessian of the first component is singular. -/
theorem run_climbing : ((climbing ℝ).run .silent () [0]).outcome =
    .error (.error (.breakdown .singularHessian)) := by
  have hcheck : (climbing ℝ).settings.check = .ok () :=
    check_eq_ok_iff.mpr (by simp [climbing])
  have hlong : ¬Vec.norm [(1 : ℝ)] ≤ (climbing ℝ).settings.epsilon := by
    simp [Vec.norm_singleton, climbing]
  have hsingular : newtonDirection (Mat.outer [0] [0]) [(1 : ℝ)] =
      .error (.error .singularHessian) := by
    simp [newtonDirection, Mat.solve, Mat.outer, Mat.height, Equation.solve, Equation.pivotFirst,
      Equation.pivotFrom, Equation.leading, Vec.neg, lift_eq_ofFault]
    rfl
  have hgradient : (ramp.complete (climbing ℝ).settings.step).gradient [0] = .ok [1] := by
    simp [ramp, Objective.complete]
  have hvalue : (ramp.complete (climbing ℝ).settings.step).value [0] = .ok 0 := by
    simp [ramp, Objective.complete, Vec.component]
  have hadvance : (⟨[0], .newton⟩ : Standing ℝ).advance (ramp.complete (climbing ℝ).settings.step)
      (climbing ℝ).settings = .error (.error (.breakdown .singularHessian)) := by
    simp [Standing.advance, Standing.land, Guide.direction, ramp, Objective.complete, hsingular,
      lift_eq_ofFault, Failure.map]
  have hstart : Arrives (ramp.complete (climbing ℝ).settings.step) (climbing ℝ).settings [0] 0
      ⟨[0], .newton⟩ := .zero rfl
  rw [run_of_oracle (oracle_of_check hcheck rfl),
    hstart.failed (by decide) hgradient hvalue hlong hadvance]

/-- Both over doubles and in exact arithmetic the minimisation of the first component by Newton's
method fails, and the error says why. -/
theorem run_error_cause_climbing :
    (∃ e, ((climbing Float).run .silent () [0]).outcome = .error (.error e) ∧
      Cause (climbing Float) e) ∧
    ∃ e, ((climbing ℝ).run .silent () [0]).outcome = .error (.error e) ∧
      Cause (climbing ℝ) e ∧ ∀ v, e ≠ .breakdown (.direction v) := by
  have hfails : (match ((climbing Float).run .silent () [0]).outcome with
      | .error (.error _) => true
      | _ => false) = true := by decide +kernel
  constructor
  · split at hfails
    · rename_i e he
      exact ⟨e, he, run_error_cause.1 _ _ _ _ _ he⟩
    · exact nomatch hfails
  · have hcause := run_error_cause.2 _ _ _ _ _ run_climbing
    exact ⟨_, run_climbing, hcause.1, hcause.2 (by simp [climbing])⟩

end Descent

end Stepwise
