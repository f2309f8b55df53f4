import Stepwise.Proofs.Descent.Account
import Stepwise.Proofs.Descent.Landings
import Stepwise.Proofs.Descent.Update

/-!
# Quasi-Newton descents on strictly monotone gradients

If the gradient is strictly monotone, it grows along every step that leaves the point
where it started: this is what `s·y > 0` says of the step `s` and the change `y` of the
gradient. So every update of a quasi-Newton descent keeps the estimate of the inverse
Hessian positive definite, whichever line search chose the step. The estimate starts as
the identity, and hence it is positive definite at all iterates
(`Stepwise.Descent.iterate_definite`), and all directions go downhill.

The only step with `s·y = 0` is the step that goes nowhere, and it is the only one that
the update rejects (`Stepwise.Descent.follow_ofFn`).
-/

namespace Stepwise.Descent

open Matrix

variable {σ : Type} {n : ℕ}

/-! ### Gradients -/

/-- The objective comes with the gradient `G`. -/
def HasGradient (objective : Objective ℝ) (G : (Fin n → ℝ) → Fin n → ℝ) : Prop :=
  ∃ slope, objective.gradient? = some slope ∧ ∀ u, slope (List.ofFn u) = .ok (List.ofFn (G u))

/-- Between any two points the gradient grows. -/
def StrictlyMonotone (G : (Fin n → ℝ) → Fin n → ℝ) : Prop :=
  ∀ u v, u ≠ v → 0 < (G u - G v) ⬝ᵥ (u - v)

variable {objective : Objective ℝ} {G : (Fin n → ℝ) → Fin n → ℝ} {s : Settings ℝ}
  {x₀ x next : Fin n → ℝ} {H : Matrix (Fin n) (Fin n) ℝ}

/-- A completed objective answers with the gradient that it came with. -/
theorem HasGradient.complete (h : HasGradient objective G) (step : ℝ) (u : Fin n → ℝ) :
    (objective.complete step).gradient (List.ofFn u) = .ok (List.ofFn (G u)) := by
  obtain ⟨slope, hslope, hG⟩ := h
  simp only [Objective.complete, hslope, Option.getD_some, hG]

/-- The curvature along a step is positive if the step leaves its point. -/
theorem StrictlyMonotone.curvature_pos (h : StrictlyMonotone G) (hne : next ≠ x) :
    0 < (next - x) ⬝ᵥ (G next - G x) := by
  rw [dotProduct_comm]
  exact h next x hne

/-- The curvature along a step vanishes just if the step goes nowhere. -/
theorem StrictlyMonotone.curvature_eq_zero_iff (h : StrictlyMonotone G) :
    (next - x) ⬝ᵥ (G next - G x) = 0 ↔ next = x := by
  constructor
  · intro hzero
    by_contra hne
    exact absurd hzero (h.curvature_pos hne).ne'
  · rintro rfl
    simp

/-! ### One iterate -/

/-- The standing at `x` with an estimate `H` of the inverse Hessian. -/
def standingAt (G : (Fin n → ℝ) → Fin n → ℝ) (x : Fin n → ℝ) (H : Matrix (Fin n) (Fin n) ℝ) :
    Standing ℝ :=
  ⟨List.ofFn x, .quasiNewton (List.ofFn (G x)) (Mat.ofMatrix H)⟩

/-- The direction is the estimate times the gradient, turned round. -/
theorem land_standingAt (f : Oracle ℝ) (s : Settings ℝ) :
    (standingAt G x H).land f s (List.ofFn (G x)) =
      lineSearch f s (List.ofFn x) (List.ofFn (-(H *ᵥ G x))) := by
  simp [Standing.land, standingAt, Guide.direction, lift_eq_ofFault]

/-- **The update rejects the step that goes nowhere and no other.** -/
theorem follow_ofFn (hG : HasGradient objective G) (hmono : StrictlyMonotone G) (step : ℝ) :
    (Guide.quasiNewton (List.ofFn (G x)) (Mat.ofMatrix H)).follow (objective.complete step)
        (List.ofFn x) (List.ofFn next) =
      if next = x then .error (.error (.curvaturePair 0))
      else .ok (.quasiNewton (List.ofFn (G next))
        (Mat.ofMatrix (bfgs H (next - x) (G next - G x)))) := by
  simp only [Guide.follow, lift_eq_ofFault, hG.complete, Failure.ofFault_ok, ok_bind, Vec.sub_ofFn,
    updateInverse_ofMatrix, hmono.curvature_eq_zero_iff]
  split_ifs <;> rfl

/-- Where the line search has landed, the next iterate is reached unless it is the old one. -/
theorem advance_standingAt (hG : HasGradient objective G) (hmono : StrictlyMonotone G) {step : ℝ}
    {hit? : Option (Hit ℝ)} (hland : lineSearch (objective.complete step) s (List.ofFn x)
      (List.ofFn (-(H *ᵥ G x))) = .ok ⟨List.ofFn next, hit?⟩) :
    (standingAt G x H).advance (objective.complete step) s =
      if next = x then .error (.error (.breakdown (.curvaturePair 0)))
      else .ok (standingAt G next (bfgs H (next - x) (G next - G x))) := by
  have hgradient : (objective.complete step).gradient (standingAt G x H).point =
      .ok (List.ofFn (G x)) := hG.complete step x
  rw [Standing.advance, lift_eq_ofFault, hgradient, Failure.ofFault_ok, ok_bind, land_standingAt,
    hland, ok_bind, standingAt, follow_ofFn hG hmono]
  split_ifs <;> rfl

/-- **A positive definite estimate points downhill.** -/
theorem dotProduct_direction_neg (hH : H.PosDef) {g : Fin n → ℝ} (hg : g ≠ 0) :
    g ⬝ᵥ (-(H *ᵥ g)) < 0 := by
  have hpos := hH.dotProduct_mulVec_pos hg
  rw [star_trivial] at hpos
  rw [dotProduct_neg]
  exact neg_neg_of_pos hpos

/-! ### All iterates -/

/-- A line search from a point with `n` components lands at one. -/
theorem exists_landing_eq_ofFn {f : Oracle ℝ} {landing : Landing ℝ}
    (h : (standingAt G x H).land f s (List.ofFn (G x)) = .ok landing) :
    ∃ next : Fin n → ℝ, landing.point = List.ofFn next := by
  rw [land_standingAt] at h
  exact Vec.exists_eq_ofFn ((length_of_lineSearch h).trans List.length_ofFn)

/-- **One step of a quasi-Newton descent keeps the estimate positive definite.** -/
theorem advance_definite (hG : HasGradient objective G) (hmono : StrictlyMonotone G)
    (hH : H.PosDef) {step : ℝ} {here : Standing ℝ}
    (h : (standingAt G x H).advance (objective.complete step) s = .ok here) :
    ∃ x' H', here = standingAt G x' H' ∧ H'.PosDef := by
  obtain ⟨gradient, landing, guide, hgradient, hland, hfollow, rfl⟩ := advance_eq_ok.mp h
  obtain rfl : List.ofFn (G x) = gradient := by
    simpa [standingAt, hG.complete] using hgradient
  obtain ⟨next, hnext⟩ := exists_landing_eq_ofFn hland
  rw [hnext] at hfollow ⊢
  rw [standingAt, follow_ofFn hG hmono] at hfollow
  -- The update succeeded, so the line search has left the iterate.
  split_ifs at hfollow with hstay
  cases hfollow
  have hpos := hmono.curvature_pos hstay
  exact ⟨next, _, rfl, bfgs_posDef hH hpos⟩

/-- **The invariant of a quasi-Newton descent**: the guide knows the gradient at the
iterate, and its estimate is positive definite. -/
theorem iterate_definite (hG : HasGradient objective G) (hmono : StrictlyMonotone G)
    (hmethod : s.method = .quasiNewton) {i : ℕ} {here : Standing ℝ}
    (h : iterate (objective.complete s.step) s (List.ofFn x₀) i = .ok here) :
    ∃ x H, here = standingAt G x H ∧ H.PosDef := by
  induction i generalizing here with
  | zero =>
    -- The first estimate is the identity.
    obtain ⟨hpoint, hstart⟩ := iterate_zero_eq_ok.mp h
    rw [hmethod, Guide.start, hG.complete, ok_bind, List.length_ofFn, Mat.identity_real] at hstart
    refine ⟨x₀, 1, ?_, .one⟩
    cases here
    cases hpoint
    cases hstart
    rfl
  | succ i ih =>
    obtain ⟨before, hbefore, hadvance⟩ := iterate_succ_eq_ok.mp h
    obtain ⟨x, H, rfl, hH⟩ := ih hbefore
    exact advance_definite hG hmono hH hadvance

/-- What there is to say of a quasi-Newton descent that stands at `x` with an estimate `H`
of the inverse Hessian. -/
structure Definite (f : Oracle ℝ) (s : Settings ℝ) (G : (Fin n → ℝ) → Fin n → ℝ)
    (here : Standing ℝ) (x : Fin n → ℝ) (H : Matrix (Fin n) (Fin n) ℝ) : Prop where
  /-- The guide knows the gradient and the estimate. -/
  standing_eq : here = standingAt G x H
  /-- The estimate is symmetric. -/
  isSymm : H.IsSymm
  /-- The estimate is positive definite. -/
  posDef : H.PosDef
  /-- The line search is given the estimate times the gradient, turned round. -/
  land_eq : here.land f s (List.ofFn (G x)) =
    lineSearch f s (List.ofFn x) (List.ofFn (-(H *ᵥ G x)))
  /-- This direction goes downhill unless the gradient vanishes. -/
  downhill : G x ≠ 0 → G x ⬝ᵥ (-(H *ᵥ G x)) < 0
  /-- The update fails after a line search that has not left the iterate, and only then. -/
  follow_eq_error_iff : ∀ landing, here.land f s (List.ofFn (G x)) = .ok landing →
    ∀ e, here.guide.follow f here.point landing.point = .error e ↔
      landing.point = here.point ∧ e = .error (.curvaturePair 0)

/-- **Quasi-Newton descents stay definite**, at every iterate that the loop reaches. -/
theorem reaches_definite (hG : HasGradient objective G) (hmono : StrictlyMonotone G)
    (hmethod : s.method = .quasiNewton) {observer : Observer (Visit ℝ) σ} {memory : σ} {i : ℕ}
    {p : Progress ℝ σ}
    (h : Reaches (objective.complete s.step) s observer memory (List.ofFn x₀) i p) :
    ∃ x H, Definite (objective.complete s.step) s G p.standing x H := by
  obtain ⟨x, H, hstanding, hH⟩ := iterate_definite hG hmono hmethod h.iterate_eq
  rw [hstanding]
  refine ⟨x, H, rfl, by simpa using hH.isHermitian, hH, land_standingAt _ s,
    dotProduct_direction_neg hH, fun landing hland e => ?_⟩
  obtain ⟨next, hnext⟩ := exists_landing_eq_ofFn hland
  rw [hnext, standingAt, follow_ofFn hG hmono, List.ofFn_inj]
  split_ifs with hstay
  · simp [hstay, eq_comm]
  · simp [hstay]

/-- Settings for a quasi-Newton descent that goes half the way along every direction. -/
noncomputable def halfNewton : Settings ℝ :=
  { (Settings.default : Settings ℝ) with
    method := .quasiNewton, search := .trivial, trivialStep := Scalar.ratio 1 2 }

/-- The gradient of the square. -/
def doubled (u : Fin n → ℝ) : Fin n → ℝ := (2 : ℝ) • u

theorem square_hasGradient : HasGradient square (doubled (n := n)) :=
  ⟨_, rfl, fun u => congrArg Except.ok (by simp [doubled])⟩

theorem doubled_strictlyMonotone : StrictlyMonotone (doubled (n := n)) := by
  intro u v hne
  have hpos : 0 < (u - v) ⬝ᵥ (u - v) := by
    simpa using dotProduct_star_self_pos_iff.mpr (sub_ne_zero.mpr hne)
  rw [doubled, doubled, ← smul_sub, smul_dotProduct, smul_eq_mul]
  positivity

/-- What there is to observe of the square. -/
theorem observe_square (x : Fin n → ℝ) (H : Matrix (Fin n) (Fin n) ℝ) (s : Settings ℝ) (i : ℕ) :
    (standingAt doubled x H).observe (square.complete s.step) s i =
      .ok (List.ofFn (doubled x),
        ⟨s.method, i, List.ofFn x, x ⬝ᵥ x, √(doubled x ⬝ᵥ doubled x)⟩) := by
  have hvalue : (square.complete s.step).value (List.ofFn x) = .ok (x ⬝ᵥ x) := Vec.dot_ofFn x x
  simp only [Standing.observe, standingAt, Guide.gradient, ok_bind, hvalue, Vec.norm_ofFn]
  rfl

/-- Half the way along the first direction is the minimum of the square. -/
theorem land_square (x : Fin n → ℝ) :
    (standingAt doubled x 1).land (square.complete halfNewton.step) halfNewton
      (List.ofFn (doubled x)) = .ok ⟨List.ofFn (0 : Fin n → ℝ), none⟩ := by
  have hhalf : x + (1 / 2 : ℝ) • -doubled x = 0 := by
    ext j
    simp [doubled]
  rw [land_standingAt]
  simp only [lineSearch, halfNewton, Ray.point, Vec.scale_ofFn, Vec.add_ofFn, lift_eq_ofFault,
    Failure.ofFault_ok, ok_bind, one_mulVec, Scalar.ratio_real, Nat.cast_one, Nat.cast_ofNat, hhalf]
  rfl

/-- The descent on the square from the point three takes a step, and stays definite. -/
theorem reaches_definite_square :
    ∃ p, Reaches (square.complete halfNewton.step) halfNewton .silent () (List.ofFn ![3]) 1 p ∧
      ∃ (x : Fin 1 → ℝ) (H : Matrix (Fin 1) (Fin 1) ℝ),
        Definite (square.complete halfNewton.step) halfNewton doubled p.standing x H := by
  have hstart : Guide.start (square.complete halfNewton.step) halfNewton.method
      (List.ofFn ![(3 : ℝ)]) = .ok (standingAt doubled ![3] 1).guide := by
    simp only [halfNewton, Guide.start, square_hasGradient.complete, List.length_ofFn,
      Mat.identity_real, ok_bind]
    rfl
  have hnorm : ¬√(doubled ![3] ⬝ᵥ doubled ![(3 : ℝ)]) ≤ halfNewton.epsilon := by
    rw [not_le, Real.lt_sqrt (by norm_num [halfNewton, Settings.default, Scalar.singleGap])]
    norm_num [halfNewton, Settings.default, Scalar.singleGap, doubled]
  have hmove : (standingAt doubled ![3] 1).move (square.complete halfNewton.step) halfNewton 0
      (List.ofFn (doubled ![3])) =
        (#[], .ok (standingAt doubled 0 (bfgs 1 (0 - ![3]) (doubled 0 - doubled ![3])))) := by
    have hleft : (0 : Fin 1 → ℝ) ≠ ![3] := fun h => by simpa using congrFun h 0
    simp only [Standing.move, land_square]
    rw [standingAt, follow_ofFn square_hasGradient doubled_strictlyMonotone, if_neg hleft]
    rfl
  have hreach : Reaches (square.complete halfNewton.step) halfNewton .silent () (List.ofFn ![3]) 1
      ⟨_, (), _⟩ :=
    Reaches.succ.mpr ⟨_, Reaches.zero.mpr ⟨_, hstart, rfl⟩, passage_iff.mp
      (.onward (observe_square _ _ _ _) (ending?_eq_none.mpr ⟨hnorm, rfl⟩) hmove)⟩
  exact ⟨_, hreach, reaches_definite square_hasGradient doubled_strictlyMonotone rfl hreach⟩

end Stepwise.Descent
