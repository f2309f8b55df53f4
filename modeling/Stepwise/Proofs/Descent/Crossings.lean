import Mathlib.Analysis.Calculus.Deriv.MeanValue
import Stepwise.Proofs.Descent.Decrease
import Stepwise.Proofs.Descent.Halvings
import Stepwise.Proofs.Descent.Quadratics
import Stepwise.Proofs.Descent.Trail
import Stepwise.Proofs.Differences

/-!
# What a bisection finds

A bisection keeps the half of an interval across which the slope changes its sign
(`Stepwise.Descent.Within.half_crossing`). If the slope is the derivative and does not decrease,
there is a minimum wherever it changes its sign (`Stepwise.Descent.Rising.exists_isMinOn`), hence
in every interval, and the middle of a narrow one is near it. That is all there is to be said of a
bisection that ends since the interval is narrow (`Stepwise.Descent.lineSearch_bisects`).

The slope has to be the derivative for that. A slope from difference quotients may increase and
change its sign like the derivative, but elsewhere. Then the bisection ends where the quotients
change their sign, and that can be farther away from every minimum than the tolerance
(`Stepwise.Descent.lineSearch_misses`).
-/

namespace Stepwise.Descent

open Matrix Halving

variable {g σ : ℝ → ℝ} {epsilon delta tol lo hi : ℝ} {b : Bracket ℝ} {n : ℕ} {s : Halving ℝ}

/-! ### Where the slope changes its sign -/

/-- A function whose slope is not positive between two points falls between them. -/
theorem le_of_slope_nonpos {a c : ℝ} (hac : a ≤ c)
    (hderiv : ∀ t ∈ Set.Icc a c, HasDerivAt g (σ t) t) (hslope : ∀ t ∈ Set.Icc a c, σ t ≤ 0) :
    g c ≤ g a :=
  antitoneOn_of_hasDerivWithinAt_nonpos (convex_Icc a c)
    (fun t ht => (hderiv t ht).continuousAt.continuousWithinAt)
    (fun t ht => (hderiv t (interior_subset ht)).hasDerivWithinAt)
    (fun t ht => hslope t (interior_subset ht))
    (Set.left_mem_Icc.mpr hac) (Set.right_mem_Icc.mpr hac) hac

/-- A function whose slope is not negative between two points rises between them. -/
theorem le_of_slope_nonneg {a c : ℝ} (hac : a ≤ c)
    (hderiv : ∀ t ∈ Set.Icc a c, HasDerivAt g (σ t) t) (hslope : ∀ t ∈ Set.Icc a c, 0 ≤ σ t) :
    g a ≤ g c :=
  monotoneOn_of_hasDerivWithinAt_nonneg (convex_Icc a c)
    (fun t ht => (hderiv t ht).continuousAt.continuousWithinAt)
    (fun t ht => (hderiv t (interior_subset ht)).hasDerivWithinAt)
    (fun t ht => hslope t (interior_subset ht))
    (Set.left_mem_Icc.mpr hac) (Set.right_mem_Icc.mpr hac) hac

/-- The slope of a function on an interval, finite or not, that does not decrease there. -/
structure Rising (g σ : ℝ → ℝ) (S : Set ℝ) : Prop where
  /-- It is an interval. -/
  ordConnected : S.OrdConnected
  /-- The slope is the derivative. -/
  hasDerivAt : ∀ t ∈ S, HasDerivAt g (σ t) t
  /-- It does not decrease. -/
  monotone : MonotoneOn σ S

/-- **Where a slope that does not decrease changes its sign there is a minimum.** -/
theorem Rising.exists_isMinOn {S : Set ℝ} (h : Rising g σ S) {a c : ℝ} (hac : a ≤ c) (ha : a ∈ S)
    (hc : c ∈ S) (hlow : σ a ≤ 0) (hhigh : 0 ≤ σ c) : ∃ m ∈ Set.Icc a c, IsMinOn g S m := by
  have hinside {u v : ℝ} (hu : u ∈ S) (hv : v ∈ S) : Set.Icc u v ⊆ S := h.ordConnected.out hu hv
  obtain ⟨m, hm, hmin⟩ := isCompact_Icc.exists_isMinOn (Set.nonempty_Icc.mpr hac)
    (fun t ht => (h.hasDerivAt t (hinside ha hc ht)).continuousAt.continuousWithinAt)
  refine ⟨m, hm, fun t ht => ?_⟩
  -- Between the two points nothing is lower by the choice of `m`, and outside them the function
  -- falls towards the first and rises from the second.
  rcases lt_or_ge t a with hta | hat
  · have hfall : g a ≤ g t :=
      le_of_slope_nonpos hta.le (fun u hu => h.hasDerivAt u (hinside ht ha hu))
        fun u hu => (h.monotone (hinside ht ha hu) ha hu.2).trans hlow
    exact (hmin (Set.left_mem_Icc.mpr hac)).trans hfall
  rcases le_or_gt t c with htc | hct
  · exact hmin ⟨hat, htc⟩
  · have hrise : g c ≤ g t :=
      le_of_slope_nonneg hct.le (fun u hu => h.hasDerivAt u (hinside hc ht hu))
        fun u hu => hhigh.trans (h.monotone hc (hinside hc ht hu) hu.1)
    exact (hmin (Set.right_mem_Icc.mpr hac)).trans hrise

/-- If the slope is not positive at the lower end and not negative at the upper one, so it is with
the half. -/
theorem Within.half_crossing (h : Within σ lo hi s) (hleft : σ s.left ≤ 0)
    (hright : 0 ≤ σ s.right) :
    σ (s.half (σ s.mid)).left ≤ 0 ∧ 0 ≤ σ (s.half (σ s.mid)).right := by
  have hlow : ¬0 < s.leftSlope := by
    rw [h.leftSlope_eq]
    exact not_lt.mpr hleft
  rcases half_cases (σ s.mid) s with ⟨hside, hhalf⟩ | ⟨hside, hhalf⟩
  · rw [hhalf]
    exact ⟨not_lt.mp (mt hside.mp hlow), hright⟩
  · rw [hhalf]
    refine ⟨hleft, ?_⟩
    by_contra hmid
    exact hside (iff_of_false (lt_asymm (not_le.mp hmid)) hlow)

/-- **The middle of a narrow interval is near a minimum.** -/
theorem Halving.Reached.near_minimum {S : Set ℝ} (hS : Rising g σ S) (hb : b.low ≤ b.high)
    (hinside : Set.Icc b.low b.high ⊆ S) (hlow : σ b.low ≤ 0) (hhigh : 0 ≤ σ b.high)
    (h : Reached (fun t => .ok (g t)) (fun t => .ok (σ t)) epsilon delta b n s)
    (hnarrow : s.right - s.left < tol) : ∃ m ∈ S, IsMinOn g S m ∧ |s.mid - m| < tol := by
  have hwithin := h.within hb
  have hcross : σ s.left ≤ 0 ∧ 0 ≤ σ s.right := by
    refine h.ends (P := fun left right => σ left ≤ 0 ∧ 0 ≤ σ right) hb ⟨hlow, hhigh⟩ ?_
    exact fun s hs hends => hs.half_crossing hends.1 hends.2
  have hleft : s.left ∈ S := hinside ⟨hwithin.lo_le, hwithin.le.trans hwithin.le_hi⟩
  have hright : s.right ∈ S := hinside ⟨hwithin.lo_le.trans hwithin.le, hwithin.le_hi⟩
  obtain ⟨m, hm, hmin⟩ := hS.exists_isMinOn hwithin.le hleft hright hcross.1 hcross.2
  refine ⟨m, hS.ordConnected.out hleft hright hm, hmin, ?_⟩
  have hmidleft := hwithin.left_le_mid
  have hmidright := hwithin.mid_le_right
  rw [abs_sub_lt_iff]
  constructor
  · linarith [hm.1]
  · linarith [hm.2]

/-! ### The line search -/

section LineSearch

variable {dim : ℕ} {F : (Fin dim → ℝ) → ℝ} {G : (Fin dim → ℝ) → Fin dim → ℝ} {f : Oracle ℝ}
  {settings : Settings ℝ} {x p : Fin dim → ℝ}

/-- **How a line search by bisection goes and where it ends.** Its intervals are halved with every
round, whatever the function is. It lands in the middle of one that is narrow, or where the value
or the slope is small, and no later than the width is below the tolerance. The middle of a narrow
interval is near a minimum, if the slope is the derivative, does not decrease and changes its sign
on the bracket. -/
theorem lineSearch_bisects (hsearch : settings.search = .bisection) (hf : HasValue f F)
    (hG : ∀ u, f.gradient (List.ofFn u) = .ok (List.ofFn (G u))) (hp : p ≠ 0) :
    ∃ ray b, Ray.ofDirection (List.ofFn x) (List.ofFn p) = .ok ray ∧
      ray.bracket f settings = .ok b ∧
      Bisecting (slopeAlong G x (unit p)) b
        (Reached (ray.value f) (ray.slope f) settings.epsilon settings.delta b) ∧
      (∀ landing, lineSearch f settings (List.ofFn x) (List.ofFn p) = .ok landing →
        ∃ n < settings.maxIters, ∃ s,
          Reached (ray.value f) (ray.slope f) settings.epsilon settings.delta b n s ∧
          landing = ⟨List.ofFn (x + s.mid • unit p), some ⟨n, s.mid⟩⟩ ∧
          (s.right - s.left < tolerance settings.delta (b.high - b.low) ∨
            |slice F x (unit p) s.mid| < settings.epsilon ∨
            |slopeAlong G x (unit p) s.mid| < settings.epsilon)) ∧
      (∀ n < settings.maxIters,
        (b.high - b.low) / 2 ^ n < tolerance settings.delta (b.high - b.low) →
          ∃ k ≤ n, ∃ t, lineSearch f settings (List.ofFn x) (List.ofFn p) =
            .ok ⟨List.ofFn (x + t • unit p), some ⟨k, t⟩⟩) ∧
      ∀ S, Rising (slice F x (unit p)) (slopeAlong G x (unit p)) S → Set.Icc b.low b.high ⊆ S →
        slopeAlong G x (unit p) b.low ≤ 0 → 0 ≤ slopeAlong G x (unit p) b.high →
          ∀ n s, Reached (ray.value f) (ray.slope f) settings.epsilon settings.delta b n s →
            s.right - s.left < tolerance settings.delta (b.high - b.low) →
              ∃ m ∈ S, IsMinOn (slice F x (unit p)) S m ∧
                |s.mid - m| < tolerance settings.delta (b.high - b.low) := by
  obtain ⟨b, hb, -, hle, -⟩ := bracket_traced hf settings x (unit p)
  have hray := ofDirection_ofFn (x := x) (dotProduct_self_pos hp)
  have hvalue := hf.slice x (unit p)
  have hslope := slope_ofFn x (unit p) hG
  refine ⟨_, b, hray, hb, ?_, fun landing hland => ?_, fun n hn hsmall => ?_, ?_⟩
  · rw [hvalue, hslope]
    exact Halving.bisecting _ _ _ _ hle
  · obtain ⟨ray, b', n, s, hit, point, hray', hb', hn, hs, hdone, hpoint, rfl⟩ :=
      (bisection_eq_ok hsearch).mp hland
    cases hray.symm.trans hray'
    cases hb.symm.trans hb'
    rw [hvalue, hslope] at hdone
    obtain ⟨rfl, hends⟩ := cut_done_iff.mp hdone
    rw [point_ofFn] at hpoint
    cases hpoint
    exact ⟨n, hn, s, hs, rfl, hends⟩
  · obtain ⟨k, hk, s, hs, hdone⟩ := Halving.exists_done (slice F x (unit p))
      (slopeAlong G x (unit p)) settings.epsilon hle hsmall
    rw [← hvalue, ← hslope] at hs hdone
    exact ⟨k, hk, s.mid, (bisection_eq_ok hsearch).mpr
      ⟨_, b, k, s, _, _, hray, hb, by omega, hs, hdone, point_ofFn x (unit p) s.mid, rfl⟩⟩
  · intro S hS hinside hlow hhigh n s hs hnarrow
    rw [hvalue, hslope] at hs
    exact hs.near_minimum hS hle hinside hlow hhigh hnarrow

/-- Settings for a bisection with a first step and a tolerance as long as the unit. -/
noncomputable def coarsely : Settings ℝ := { coarse with search := .bisection }

/-- The slope of the square on a line does not decrease. -/
theorem rising_square :
    Rising (slice (fun u => u ⬝ᵥ u) ![0] ![1]) (slopeAlong doubled ![0] ![1]) Set.univ where
  ordConnected := Set.ordConnected_univ
  hasDerivAt t _ := hasDerivAt_slice ![0] ![1] (square_hasExactGradient 1) t
  monotone a _ c _ hac := by simpa [slopeAlong, doubled] using hac

/-- The bisection of the square from its minimum ends in the second round, and wherever it ends for
the width it is near the minimum. -/
theorem lineSearch_bisects_square :
    coarsely.search = .bisection ∧ (![1] : Fin 1 → ℝ) ≠ 0 ∧
      HasValue (square.complete 1) (fun u : Fin 1 → ℝ => u ⬝ᵥ u) ∧
      (∀ u : Fin 1 → ℝ, (square.complete 1).gradient (List.ofFn u) =
        .ok (List.ofFn (doubled u))) ∧
      (∃ k ≤ 1, ∃ t, lineSearch (square.complete 1) coarsely (List.ofFn ![0]) (List.ofFn ![1]) =
        .ok ⟨List.ofFn (![0] + t • ![1]), some ⟨k, t⟩⟩) ∧
      ∀ n s, Reached ((⟨List.ofFn ![0], List.ofFn ![1]⟩ : Ray ℝ).value (square.complete 1))
        ((⟨List.ofFn ![0], List.ofFn ![1]⟩ : Ray ℝ).slope (square.complete 1)) coarsely.epsilon
        coarsely.delta ⟨-1, 0, true⟩ n s → s.right - s.left < 1 →
          ∃ m, IsMinOn (slice (fun u => u ⬝ᵥ u) ![0] ![1]) Set.univ m ∧ |s.mid - m| < 1 := by
  have hp : (![1] : Fin 1 → ℝ) ≠ 0 := by simp
  have hgradient := (square_hasExactGradient (n := 1) 1).gradient_eq
  have htolerance : tolerance coarsely.delta (0 - -1) = 1 := tolerance_unit 1
  obtain ⟨ray, b, hray, hb, -, -, hends, hnear⟩ := lineSearch_bisects (x := ![0])
    (rfl : coarsely.search = .bisection) (square_hasValue 1) hgradient hp
  rw [ofDirection_ofFn (dotProduct_self_pos hp), unit_one] at hray
  cases hray
  cases hb.symm.trans bracket_coarse
  rw [unit_one, htolerance] at hends hnear
  refine ⟨rfl, hp, square_hasValue 1, hgradient, ?_, fun n s hs hnarrow => ?_⟩
  · exact hends 1 (by decide) (by norm_num)
  · obtain ⟨m, -, hm⟩ := hnear Set.univ rising_square (Set.subset_univ _)
      (by norm_num [slopeAlong, doubled]) (by norm_num [slopeAlong, doubled]) n s hs hnarrow
    exact ⟨m, hm⟩

end LineSearch

/-! ### Slopes from difference quotients -/

/-- A slope that does not decrease and changes its sign between two points. -/
structure Crosses (σ : ℝ → ℝ) (a c : ℝ) : Prop where
  /-- It does not decrease. -/
  monotone : Monotone σ
  /-- It is negative at the first point. -/
  neg : σ a < 0
  /-- It is positive at the second. -/
  pos : 0 < σ c

/-- A function whose slope increases and vanishes a quarter before zero. -/
def quartic {R : Type} [Scalar R] (t : R) : R :=
  t * (Scalar.ofNat 2 * t * t * t + Scalar.ofNat 4 * t * t + Scalar.ofNat 3 * t + Scalar.ratio 7 8)

/-- The quartic on a line, without a gradient. -/
def lopsided {R : Type} [Scalar R] : Objective R where
  value u := .ok (quartic (u.headD (Scalar.ofNat 0)))

theorem quartic_real (t : ℝ) : quartic t = 2 * t ^ 4 + 4 * t ^ 3 + 3 * t ^ 2 + 7 / 8 * t := by
  simp only [quartic, Scalar.ofNat_real, Scalar.ratio_real, Nat.cast_ofNat]
  ring

theorem quartic_hasDerivAt (t : ℝ) : HasDerivAt quartic ((2 * t + 1) ^ 3 - 1 / 8) t := by
  have hfourth := (hasDerivAt_pow 4 t).const_mul 2
  have hthird := (hasDerivAt_pow 3 t).const_mul 4
  have hsecond := (hasDerivAt_pow 2 t).const_mul 3
  have hfirst := (hasDerivAt_id t).const_mul (7 / 8)
  rw [funext quartic_real]
  refine (((hfourth.fun_add hthird).fun_add hsecond).fun_add hfirst).congr_deriv ?_
  simp only [Nat.cast_ofNat]
  ring

theorem cube_monotone : Monotone fun t : ℝ => (2 * t + 1) ^ 3 := fun a c hac => by
  have hodd : Odd 3 := by decide
  exact hodd.strictMono_pow.monotone (by linarith)

/-- The slope of the quartic changes its sign between minus one and zero. -/
theorem quartic_crosses : Crosses (deriv quartic) (-1) 0 := by
  have hderiv : deriv quartic = fun t : ℝ => (2 * t + 1) ^ 3 - 1 / 8 :=
    funext fun t => (quartic_hasDerivAt t).deriv
  rw [hderiv]
  refine ⟨fun _ _ hac => sub_le_sub_right (cube_monotone hac) _, ?_, ?_⟩
  · norm_num
  · norm_num

theorem quartic_sub (t : ℝ) : quartic t - quartic (-1 / 4) =
    (2 * t + 1 / 2) ^ 2 * ((2 * t + 3 / 2) ^ 2 + 1 / 2) / 8 := by
  simp only [quartic_real]
  ring

theorem quartic_isMinOn : IsMinOn quartic Set.univ (-1 / 4 : ℝ) := fun t _ => by
  have hsub : 0 ≤ quartic t - quartic (-1 / 4) := by
    rw [quartic_sub]
    positivity
  exact sub_nonneg.mp hsub

/-- The minimum is the only one. -/
theorem eq_of_quartic_le {m : ℝ} (h : quartic m ≤ quartic (-1 / 4)) : m = -1 / 4 := by
  have hproduct : (2 * m + 1 / 2) ^ 2 * ((2 * m + 3 / 2) ^ 2 + 1 / 2) ≤ 0 := by
    linarith [quartic_sub m]
  have hpos : 0 < (2 * m + 3 / 2) ^ 2 + 1 / 2 := by positivity
  have hsquare : (2 * m + 1 / 2) ^ 2 = 0 :=
    le_antisymm (nonpos_of_mul_nonpos_left hproduct hpos) (sq_nonneg _)
  have hzero : 2 * m + 1 / 2 = 0 := pow_eq_zero_iff two_ne_zero |>.mp hsquare
  linarith

/-- The difference quotients of the quartic with a step of one. -/
noncomputable def quotient (t : ℝ) : ℝ :=
  (quartic (t + 1) - quartic (t - 1)) / Scalar.ofNat 2

theorem quotient_eq (t : ℝ) : quotient t = (2 * t + 1) ^ 3 + 4 * (2 * t + 1) - 1 / 8 := by
  simp only [quotient, quartic_real, Scalar.ofNat_real, Nat.cast_ofNat]
  ring

/-- So do the difference quotients. -/
theorem quotient_crosses : Crosses quotient (-1) 0 := by
  rw [funext quotient_eq]
  refine ⟨fun a c hac => ?_, ?_, ?_⟩
  · have hcube := cube_monotone hac
    simp only at hcube ⊢
    linarith
  · norm_num
  · norm_num

/-- Settings for a bisection with a first step as long as the unit, which goes on until the width
is below five thirty-seconds. -/
noncomputable def finely : Settings ℝ :=
  { unitStep with epsilon := 0, delta := Scalar.ratio 5 32, search := .bisection }

theorem finely_check : finely.check = .ok () := by
  rw [check_eq_ok_iff]
  norm_num [finely, unitStep, Settings.default]

theorem tolerance_finely : tolerance finely.delta (0 - -1) = 5 / 32 := by
  rw [tolerance_unit]
  norm_num [finely]

theorem lopsided_hasValue : HasValue (lopsided.complete finely.step)
    fun u : Fin 1 → ℝ => quartic (u 0) := fun u => by
  simp [lopsided, Objective.complete]

/-- The gradient that is filled in: the difference quotient. -/
noncomputable def quotients (u : Fin 1 → ℝ) (_ : Fin 1) : ℝ := quotient (u 0)

theorem lopsided_gradient (u : Fin 1 → ℝ) :
    (lopsided.complete finely.step).gradient (List.ofFn u) = .ok (List.ofFn (quotients u)) := by
  refine (centralGradient_ofFn lopsided_hasValue finely.step u).trans ?_
  congr 2
  funext i
  rw [quotients, Subsingleton.elim i 0, quotient]
  simp [finely, unitStep]

theorem slice_lopsided : slice (fun u : Fin 1 → ℝ => quartic (u 0)) ![0] ![1] = quartic := by
  funext t
  simp [slice]

theorem slopeAlong_lopsided : slopeAlong quotients ![0] ![1] = quotient := by
  funext t
  simp [slopeAlong, quotients, dotProduct]

theorem bracket_lopsided :
    (⟨List.ofFn ![0], List.ofFn ![1]⟩ : Ray ℝ).bracket (lopsided.complete finely.step) finely =
      .ok ⟨-1, 0, true⟩ := by
  rw [Ray.bracket, lopsided_hasValue.slice, slice_lopsided]
  exact search_turned one_pos (by norm_num [quartic_real, slack]) (by norm_num [quartic_real])
    (by norm_num [quartic_real]) 32765

/-- Three halvings lead from the bracket to an interval an eighth wide that begins a half before
zero. -/
theorem reached_lopsided :
    Reached (fun t => .ok (quartic t)) (fun t => .ok (quotient t)) finely.epsilon
      finely.delta ⟨-1, 0, true⟩ 3 ⟨-1 / 2, -3 / 8, -1 / 8, -7 / 16⟩ := by
  refine reached_succ.mpr ⟨⟨-1 / 2, -1 / 4, -1 / 8, -3 / 8⟩, reached_succ.mpr
    ⟨⟨-1 / 2, 0, -1 / 8, -1 / 4⟩, reached_succ.mpr ⟨⟨-1, 0, -41 / 8, -1 / 2⟩, ?_, ?_⟩, ?_⟩, ?_⟩
  · refine reached_zero.mpr ⟨-41 / 8, ?_, ?_⟩
    · norm_num [quotient_eq]
    · norm_num [middle]
  all_goals
    rw [tolerance_finely]
    norm_num [Halving.next, Halving.settled, Halving.half, sameSide, middle, finely, quartic_real,
      quotient_eq, pure, Except.pure]

/-- **A bisection by difference quotients need not come near a minimum**: even if both the slope and
the difference quotients increase and change their signs on the bracket, it may end with a narrow
interval and be farther away from every minimum than the tolerance. -/
theorem lineSearch_misses :
    finely.check = .ok () ∧ finely.search = .bisection ∧ (![1] : Fin 1 → ℝ) ≠ 0 ∧
      HasValue (lopsided.complete finely.step) (fun u : Fin 1 → ℝ => quartic (u 0)) ∧
      ∃ ray : Ray ℝ, Ray.ofDirection (List.ofFn ![0]) (List.ofFn ![1]) = .ok ray ∧
      ray.value (lopsided.complete finely.step) = (fun t => .ok (quartic t)) ∧
      ray.slope (lopsided.complete finely.step) = (fun t => .ok (quotient t)) ∧
      ray.bracket (lopsided.complete finely.step) finely = .ok ⟨-1, 0, true⟩ ∧
      Crosses quotient (-1) 0 ∧ Differentiable ℝ (quartic : ℝ → ℝ) ∧
      Crosses (deriv quartic) (-1) 0 ∧
      IsMinOn quartic Set.univ (-1 / 4 : ℝ) ∧
      ∃ n s, Reached (ray.value (lopsided.complete finely.step))
          (ray.slope (lopsided.complete finely.step)) finely.epsilon finely.delta
          ⟨-1, 0, true⟩ n s ∧
        lineSearch (lopsided.complete finely.step) finely (List.ofFn ![0]) (List.ofFn ![1]) =
          .ok ⟨List.ofFn ![s.mid], some ⟨n, s.mid⟩⟩ ∧
        s.right - s.left < tolerance finely.delta (0 - -1) ∧
        ∀ S, Set.Icc (-1) 0 ⊆ S → ∀ m, IsMinOn quartic S m →
          ¬|s.mid - m| < tolerance finely.delta (0 - -1) := by
  have hp : (![1] : Fin 1 → ℝ) ≠ 0 := by simp
  have hray := ofDirection_ofFn (x := ![0]) (dotProduct_self_pos hp)
  have hvalue := lopsided_hasValue.slice ![0] ![1]
  have hslope := slope_ofFn ![0] ![1] lopsided_gradient
  rw [unit_one] at hray
  rw [slice_lopsided] at hvalue
  rw [slopeAlong_lopsided] at hslope
  have hnarrow : (-3 / 8 - -1 / 2 : ℝ) < tolerance finely.delta (0 - -1) := by
    rw [tolerance_finely]
    norm_num
  refine ⟨finely_check, rfl, hp, lopsided_hasValue, _, hray, hvalue, hslope, bracket_lopsided,
    quotient_crosses, fun t => (quartic_hasDerivAt t).differentiableAt, quartic_crosses,
    quartic_isMinOn, 3, ⟨-1 / 2, -3 / 8, -1 / 8, -7 / 16⟩, ?_, ?_,
    hnarrow, fun S hS m hm => ?_⟩
  · rw [hvalue, hslope]
    exact reached_lopsided
  · refine (bisection_eq_ok rfl).mpr ⟨_, _, 3, ⟨-1 / 2, -3 / 8, -1 / 8, -7 / 16⟩, ⟨3, -7 / 16⟩, _,
      hray, bracket_lopsided, by decide, ?_, ?_, point_ofFn ![0] ![1] _, ?_⟩
    · rw [hvalue, hslope]
      exact reached_lopsided
    · rw [hvalue, hslope]
      exact cut_done_iff.mpr ⟨rfl, .inl hnarrow⟩
    · simp
  · obtain rfl := eq_of_quartic_le (hm (hS ⟨by norm_num, by norm_num⟩))
    rw [tolerance_finely]
    norm_num [abs_of_neg]

end Stepwise.Descent
