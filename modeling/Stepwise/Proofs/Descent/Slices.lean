import Mathlib.Analysis.Calculus.Deriv.Shift
import Mathlib.Analysis.Convex.Deriv
import Mathlib.Topology.Algebra.Module.ModuleTopology
import Stepwise.Descent.Ray
import Stepwise.Proofs.Linear.Vectors

/-!
# Slices of an objective

What a line search sees of an objective is its slice along a ray, a function of one
number. In exact arithmetic a ray from `x` with heading `d` has the slice
`t ↦ F (x + t d)`, whose slope at `t` is `∇F (x + t d) · d` (`Stepwise.Descent.slice`,
`Stepwise.Descent.hasDerivAt_slice`).

A strictly convex slice that has a minimum falls up to it and rises after it
(`Stepwise.Descent.unimodal_of_strictConvexOn`), and lies above each of its tangents
(`Stepwise.Descent.tangent_le`).
-/

namespace Stepwise.Descent

open Matrix

/-! ### Functions of one number -/

variable {g : ℝ → ℝ} {m : ℝ}

/-- The function falls up to `m` and rises after it. -/
structure Unimodal (g : ℝ → ℝ) (m : ℝ) : Prop where
  /-- It falls up to there. -/
  falls : StrictAntiOn g (Set.Iic m)
  /-- It rises from there on. -/
  rises : StrictMonoOn g (Set.Ici m)

/-- **A strictly convex function with a minimum falls up to it and rises after it.** -/
theorem unimodal_of_strictConvexOn (hg : StrictConvexOn ℝ Set.univ g) (hm : ∀ t, g m ≤ g t) :
    Unimodal g m := by
  -- A second minimum would be the first.
  have hlt {t : ℝ} (hne : t ≠ m) : g m < g t := by
    refine lt_of_le_of_ne (hm t) fun heq => hne ?_
    have hmin : IsMinOn g Set.univ m := fun u _ => hm u
    have hmin' : IsMinOn g Set.univ t := fun u _ => heq ▸ hm u
    exact hg.eq_of_isMinOn hmin' hmin (Set.mem_univ t) (Set.mem_univ m)
  constructor
  · intro a _ b hb hab
    rcases (show b ≤ m from hb).eq_or_lt with rfl | hbm
    · exact hlt hab.ne
    · exact hg.convexOn.lt_left_of_right_lt (Set.mem_univ a) (Set.mem_univ m)
        (Ioo_subset_openSegment ⟨hab, hbm⟩) (hlt hbm.ne)
  · intro a ha b _ hab
    rcases (show m ≤ a from ha).eq_or_lt with rfl | hma
    · exact hlt hab.ne'
    · exact hg.convexOn.lt_right_of_left_lt (Set.mem_univ m) (Set.mem_univ b)
        (Ioo_subset_openSegment ⟨hma, hab⟩) (hlt hma.ne')

namespace Unimodal

/-- A function that does not rise between two points has its minimum after the first. -/
theorem lt_minimum (hg : Unimodal g m) {a b : ℝ} (hab : a < b) (hle : g b ≤ g a) : a < m := by
  by_contra hma
  have hma : m ≤ a := not_lt.mp hma
  exact absurd (hg.rises hma (hma.trans hab.le) hab) (not_lt.mpr hle)

/-- A function that does not fall between two points has its minimum before the second. -/
theorem minimum_lt (hg : Unimodal g m) {a b : ℝ} (hab : a < b) (hle : g a ≤ g b) : m < b := by
  by_contra hbm
  have hbm : b ≤ m := not_lt.mp hbm
  exact absurd (hg.falls (hab.le.trans hbm) hbm hab) (not_lt.mpr hle)

/-- What has not fallen will not fall. -/
theorem le_of_rise (hg : Unimodal g m) {a b c : ℝ} (hab : a < b) (hbc : b ≤ c)
    (hle : g a ≤ g b) : g b ≤ g c := by
  have hmb := (hg.minimum_lt hab hle).le
  exact hg.rises.monotoneOn hmb (hmb.trans hbc) hbc

/-- Between two points the function is no higher than at the higher of them. -/
theorem le_max (hg : Unimodal g m) {a b c : ℝ} (hab : a ≤ b) (hbc : b ≤ c) :
    g b ≤ max (g a) (g c) := by
  rcases le_total b m with hbm | hmb
  · exact le_max_of_le_left (hg.falls.antitoneOn (hab.trans hbm) hbm hab)
  · exact le_max_of_le_right (hg.rises.monotoneOn hmb (hmb.trans hbc) hbc)

end Unimodal

/-- A convex function lies above each of its tangents. -/
theorem tangent_le (hg : ConvexOn ℝ Set.univ g) {slope t : ℝ} (hslope : HasDerivAt g slope t)
    (u : ℝ) : g t + slope * (u - t) ≤ g u := by
  rcases lt_trichotomy t u with hlt | rfl | hlt
  · have hle := hg.le_slope_of_hasDerivAt (Set.mem_univ t) (Set.mem_univ u) hlt hslope
    rw [slope_def_field, le_div_iff₀ (sub_pos.mpr hlt)] at hle
    linarith
  · simp
  · have hle := hg.slope_le_of_hasDerivAt (Set.mem_univ u) (Set.mem_univ t) hlt hslope
    rw [slope_def_field, div_le_iff₀ (sub_pos.mpr hlt)] at hle
    linarith

/-! ### Rays -/

variable {n : ℕ} {F : (Fin n → ℝ) → ℝ} {G : (Fin n → ℝ) → Fin n → ℝ} {f : Oracle ℝ}

/-- The slice of a function along the ray from `x` with heading `d`. -/
def slice (F : (Fin n → ℝ) → ℝ) (x d : Fin n → ℝ) (t : ℝ) : ℝ := F (x + t • d)

/-- The component of a vector field along the ray from `x` with heading `d`. -/
def slopeAlong (G : (Fin n → ℝ) → Fin n → ℝ) (x d : Fin n → ℝ) (t : ℝ) : ℝ := G (x + t • d) ⬝ᵥ d

/-- The oracle answers with the values of `F`. -/
def HasValue (f : Oracle ℝ) (F : (Fin n → ℝ) → ℝ) : Prop :=
  ∀ u, f.value (List.ofFn u) = .ok (F u)

/-- The oracle answers with `G` when it is asked for the gradient, and `G` is the gradient of
`F`: it gives the derivative in every direction. -/
structure HasExactGradient (f : Oracle ℝ) (F : (Fin n → ℝ) → ℝ) (G : (Fin n → ℝ) → Fin n → ℝ) :
    Prop where
  /-- The answer to the question for the gradient. -/
  gradient_eq : ∀ u, f.gradient (List.ofFn u) = .ok (List.ofFn (G u))
  /-- The derivative in a direction is its inner product with the gradient. -/
  hasDerivAt : ∀ u v, HasDerivAt (fun t : ℝ => F (u + t • v)) (G u ⬝ᵥ v) 0

variable (x d : Fin n → ℝ)

@[simp] theorem slice_zero : slice F x d 0 = F x := by simp [slice]

@[simp] theorem point_ofFn (t : ℝ) :
    (⟨List.ofFn x, List.ofFn d⟩ : Ray ℝ).point t = .ok (List.ofFn (x + t • d)) := by
  rw [Ray.point, Vec.scale_ofFn, Vec.add_ofFn]

/-- What a line search sees of the values is the slice. -/
theorem HasValue.slice (h : HasValue f F) :
    (⟨List.ofFn x, List.ofFn d⟩ : Ray ℝ).value f = fun t => .ok (slice F x d t) := by
  funext t
  rw [Ray.value, point_ofFn, ok_bind, h]
  rfl

/-- What a line search sees of the answers to the question for the gradient is their component
along the ray. -/
theorem slope_ofFn (hG : ∀ u, f.gradient (List.ofFn u) = .ok (List.ofFn (G u))) :
    (⟨List.ofFn x, List.ofFn d⟩ : Ray ℝ).slope f = fun t => .ok (slopeAlong G x d t) := by
  funext t
  rw [Ray.slope, point_ofFn, ok_bind, hG, ok_bind, Vec.dot_ofFn]
  rfl

/-- What a line search sees of the gradient is its component along the ray. -/
theorem HasExactGradient.slope (h : HasExactGradient f F G) :
    (⟨List.ofFn x, List.ofFn d⟩ : Ray ℝ).slope f = fun t => .ok (G (x + t • d) ⬝ᵥ d) :=
  slope_ofFn x d h.gradient_eq

/-- **The slope along a ray is the derivative of the slice.** -/
theorem hasDerivAt_slice (h : HasExactGradient f F G) (t : ℝ) :
    HasDerivAt (Descent.slice F x d) (G (x + t • d) ⬝ᵥ d) t := by
  have hzero := h.hasDerivAt (x + t • d) d
  rw [← sub_self t] at hzero
  have hshift := HasDerivAt.comp_sub_const t t hzero
  refine hshift.congr_of_eventuallyEq (Filter.Eventually.of_forall fun r => ?_)
  simp only [Descent.slice, sub_smul]
  congr 1
  abel

/-! ### Unit directions -/

/-- The direction of `p`, one unit long. -/
noncomputable def unit (p : Fin n → ℝ) : Fin n → ℝ := (√(p ⬝ᵥ p))⁻¹ • p

variable {x}

/-- A direction that is not zero has a ray with the unit heading. -/
theorem ofDirection_ofFn {p : Fin n → ℝ} (hp : 0 < p ⬝ᵥ p) :
    Ray.ofDirection (List.ofFn x) (List.ofFn p) = .ok ⟨List.ofFn x, List.ofFn (unit p)⟩ := by
  simp only [Ray.ofDirection, Vec.norm_ofFn, Vec.divide_ofFn, Scalar.ofNat_real, Nat.cast_zero]
  rw [if_pos (by simpa using hp)]
  rfl

/-- A ray in a direction exists only with the unit heading. -/
theorem ofDirection_eq_ok {p : Fin n → ℝ} {ray : Ray ℝ}
    (h : Ray.ofDirection (List.ofFn x) (List.ofFn p) = .ok ray) :
    ray = ⟨List.ofFn x, List.ofFn (unit p)⟩ := by
  simp only [Ray.ofDirection, Vec.norm_ofFn, Vec.divide_ofFn] at h
  split at h
  · cases h
    rfl
  · exact nomatch h

end Stepwise.Descent
