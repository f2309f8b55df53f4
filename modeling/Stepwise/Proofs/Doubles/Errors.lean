import Stepwise.Proofs.Linear.Vectors
import Stepwise.Proofs.Doubles.Operations

/-!
# Rounding errors

A finite sum, difference, product or inner product of doubles is made of finite doubles, since
nothing finite comes out of an infinite or undefined operand. So where a result is finite, every
rounding on the way to it was one of finite numbers, and its error is known.

One addition is wrong by `2⁻⁵³` of the exact sum at most, and a product by as much of the exact
product and of the least normal double (`Stepwise.Double.add_error`,
`Stepwise.Double.mul_error`). Along a sum in any order the errors add up to a power of
`1 + 2⁻⁵³`, one factor for every addition above a summand
(`Stepwise.Double.error_of_summed`), and an inner product adds one factor for the products and
one for the coordinates, if they have been rounded too (`Stepwise.Double.dot_error`).
-/

namespace Stepwise.Double

open Float.Model (UnpackedFloat Format)
open Float.Model.UnpackedFloat (Sign)

/-! ### Finite results -/

/-- An infinite or undefined number. -/
inductive Unbounded : UnpackedFloat → Prop
  /-- An infinity. -/
  | infinity (s : Sign) : Unbounded (.infinity s)
  /-- The undefined number. -/
  | notANumber : Unbounded .notANumber

variable {u w : UnpackedFloat} {x y : Float}

theorem Unbounded.stored_isFinite (h : Unbounded u) : ¬ (stored u).isFinite := by
  cases h with
  | infinity s =>
    rw [stored_infinity]
    exact Bool.false_ne_true
  | notANumber =>
    rw [stored_notANumber]
    exact Bool.false_ne_true

theorem unbounded_of_not_isFinite (hx : ¬ x.isFinite) : Unbounded x.toModel.unpack := by
  by_cases hnan : x.isNaN
  · rw [isNaN_iff.mp hnan]
    exact .notANumber
  · obtain ⟨s, hs⟩ := unpack_eq_infinity hx hnan
    rw [hs]
    exact .infinity s

theorem Unbounded.add_left (h : Unbounded u) (w : UnpackedFloat) :
    Unbounded (UnpackedFloat.add Format.binary64 u w) := by
  cases h with
  | notANumber => exact .notANumber
  | infinity s =>
    cases w with
    | notANumber => exact .notANumber
    | infinity s' => cases s <;> cases s' <;> first | exact .infinity _ | exact .notANumber
    | zero s' => exact .infinity s
    | finite s' m e hpos => exact .infinity s

theorem Unbounded.add_right (u : UnpackedFloat) (h : Unbounded w) :
    Unbounded (UnpackedFloat.add Format.binary64 u w) := by
  cases h with
  | notANumber => cases u <;> exact .notANumber
  | infinity s =>
    cases u with
    | notANumber => exact .notANumber
    | infinity s' => exact Unbounded.add_left (.infinity s') _
    | zero s' => exact .infinity s
    | finite s' m e hpos => exact .infinity s

theorem Unbounded.mul_left (h : Unbounded u) (w : UnpackedFloat) :
    Unbounded (UnpackedFloat.mul Format.binary64 u w) := by
  cases h <;> cases w <;> first | exact .infinity _ | exact .notANumber

theorem Unbounded.mul_right (u : UnpackedFloat) (h : Unbounded w) :
    Unbounded (UnpackedFloat.mul Format.binary64 u w) := by
  cases h <;> cases u <;> first | exact .infinity _ | exact .notANumber

theorem Unbounded.div_left (h : Unbounded u) (w : UnpackedFloat) :
    Unbounded (UnpackedFloat.div Format.binary64 u w) := by
  cases h <;> cases w <;> first | exact .infinity _ | exact .notANumber

/-- A finite sum has finite summands. -/
theorem isFinite_of_add (h : (x + y).isFinite) : x.isFinite ∧ y.isFinite := by
  constructor
  · by_contra hx
    exact ((unbounded_of_not_isFinite hx).add_left _).stored_isFinite h
  · by_contra hy
    exact (Unbounded.add_right _ (unbounded_of_not_isFinite hy)).stored_isFinite h

theorem isFinite_of_sub (h : (x - y).isFinite) : x.isFinite ∧ y.isFinite := by
  rw [sub_eq_add_neg] at h
  obtain ⟨hx, hy⟩ := isFinite_of_add h
  exact ⟨hx, by rwa [isFinite_neg] at hy⟩

/-- A finite product has finite factors. -/
theorem isFinite_of_mul (h : (x * y).isFinite) : x.isFinite ∧ y.isFinite := by
  constructor
  · by_contra hx
    exact ((unbounded_of_not_isFinite hx).mul_left _).stored_isFinite h
  · by_contra hy
    exact (Unbounded.mul_right _ (unbounded_of_not_isFinite hy)).stored_isFinite h

/-- A finite quotient has a finite numerator. -/
theorem isFinite_of_div (h : (x / y).isFinite) : x.isFinite := by
  by_contra hx
  exact ((unbounded_of_not_isFinite hx).div_left _).stored_isFinite h

/-! ### One rounding -/

/-- The error of one rounding, relative to the exact number. -/
noncomputable def roundoff : ℝ := 1 / (2 ^ 53 : ℕ)

theorem roundoff_eq : roundoff = 1 / 2 ^ 53 := by
  rw [roundoff, Nat.cast_pow, Nat.cast_ofNat]

theorem roundoff_pos : 0 < roundoff := by
  rw [roundoff_eq]
  positivity

/-- A sum of whole numbers of units is rounded in proportion, without exception. -/
theorem Rounded.error_le {a b : ℤ} (h : Rounded a b) (hb : |b| < limit) :
    2 ^ 53 * |b - a| ≤ |a| := by
  obtain ⟨z, hnear, rfl⟩ := h
  have hclamp := abs_lt.mp hb
  have hz : max (-(limit : ℤ)) (min limit z) = z := by omega
  rw [hz]
  have hhalf := hnear.near
  have hnatAbs := Int.abs_eq_natAbs a
  rcases ulp_le a with hone | hwide
  · have hpos := abs_nonneg a
    rw [hone] at hhalf
    omega
  · omega

/-- An error in units, in proportion to the exact number and a small one. -/
theorem error_of_units {z r a : ℝ}
    (h : 2 ^ 53 * |z * 2 ^ 1074 - r * 2 ^ 1074| ≤ |r * 2 ^ 1074| + a * 2 ^ 1074) :
    |z - r| ≤ roundoff * (|r| + a) := by
  have hpos := scale_pos
  generalize (2 : ℝ) ^ 1074 = k at h hpos
  rw [← sub_mul, abs_mul, abs_mul, abs_of_pos hpos, ← mul_assoc, ← add_mul] at h
  have hproportion := le_of_mul_le_mul_right h hpos
  rw [roundoff_eq, one_div_mul_eq_div, le_div_iff₀ (by positivity), mul_comm]
  exact hproportion

/-- The least double that has all its bits. -/
noncomputable def leastNormal : ℝ := 1 / (2 ^ 1022 : ℕ)

theorem leastNormal_eq : leastNormal = 1 / 2 ^ 1022 := by
  rw [leastNormal, Nat.cast_pow, Nat.cast_ofNat]

theorem leastNormal_pos : 0 < leastNormal := by
  rw [leastNormal_eq]
  positivity

theorem leastNormal_mul_scale : leastNormal * 2 ^ 1074 = 2 ^ 52 := by
  have hscale (k : ℕ) : (1 / 2 ^ k : ℝ) * 2 ^ (k + 52) = 2 ^ 52 := by
    rw [pow_add, ← mul_assoc, one_div_mul_cancel (by positivity), one_mul]
  rw [leastNormal_eq]
  exact hscale 1022

theorem toReal_neg (x : Float) : toReal (-x) = -toReal x := by
  have hunits : unitsOf (-x).toModel.unpack = -unitsOf x.toModel.unpack := units_neg x
  rw [toReal, toReal, realOf_eq, realOf_eq, hunits, Int.cast_neg, neg_div]

/-- **The error of a sum** is relative to the sum. -/
theorem add_error (h : (x + y).isFinite) :
    |toReal (x + y) - (toReal x + toReal y)| ≤ roundoff * |toReal x + toReal y| := by
  obtain ⟨hx, hy⟩ := isFinite_of_add h
  have herror := (add_rounded hx hy).1.error_le (abs_units_lt h)
  have hcast : 2 ^ 53 * |(units (x + y) : ℝ) - (units x + units y)| ≤ |(units x : ℝ) + units y| := by
    exact_mod_cast herror
  rw [← toReal_mul_scale, ← toReal_mul_scale x, ← toReal_mul_scale y, ← add_mul] at hcast
  rw [← add_zero |_ * _|, ← zero_mul ((2 : ℝ) ^ 1074)] at hcast
  have hsum := error_of_units hcast
  rwa [add_zero] at hsum

/-- The error of a difference is relative to the difference. -/
theorem sub_error (h : (x - y).isFinite) :
    |toReal (x - y) - (toReal x - toReal y)| ≤ roundoff * |toReal x - toReal y| := by
  rw [sub_eq_add_neg] at h ⊢
  have hopposite : toReal x - toReal y = toReal x + toReal (-y) := by
    rw [toReal_neg]
    ring
  rw [hopposite]
  exact add_error h

/-- **The error of a product** is relative to the product and the least normal double. -/
theorem mul_error (h : (x * y).isFinite) :
    |toReal (x * y) - toReal x * toReal y| ≤
      roundoff * (|toReal x * toReal y| + leastNormal) := by
  obtain ⟨hx, hy⟩ := isFinite_of_mul h
  have herror := (mul_nearest hx hy).1.error_le (abs_units_lt h)
  rw [← toReal_mul_scale (x * y), ← leastNormal_mul_scale] at herror
  exact error_of_units herror

theorem toReal_two : toReal (Scalar.ofNat 2) = 2 := by
  have hunpack : (Scalar.ofNat 2 : Float).toModel.unpack =
    .finite .positive (2 ^ 52) (-51) (Nat.two_pow_pos 52) := rfl
  have hone : Sign.positive.apply 1 = 1 := rfl
  rw [toReal, hunpack, realOf_finite _ _ (by decide), hone]
  norm_num

/-- A double is doubled without an error. -/
theorem toReal_double (h : (Scalar.ofNat 2 * x).isFinite) :
    toReal (Scalar.ofNat 2 * x) = 2 * toReal x := by
  have hnearest := (mul_nearest (isFinite_of_mul h).1 (isFinite_of_mul h).2).1
  have hexact : toReal (Scalar.ofNat 2) * toReal x * 2 ^ 1074 = (2 * units x : ℤ) := by
    rw [toReal_two, mul_assoc, toReal_mul_scale]
    push_cast
    rfl
  rw [hexact] at hnearest
  have hlimit : |2 * units x| ≤ limit := by
    by_contra! hbeyond
    have hle : (limit : ℝ) ≤ |((2 * units x : ℤ) : ℝ)| := by exact_mod_cast hbeyond.le
    exact (hnearest.le_abs representable_limit hle).not_gt (abs_units_lt h)
  have heq := hnearest.eq ((representable_units x).double hlimit)
  refine mul_right_cancel₀ scale_pos.ne' ?_
  rw [toReal_mul_scale, mul_assoc, toReal_mul_scale, heq]
  push_cast
  rfl

/-! ### Sums -/

/-- A finite sum in any order is a sum of finite doubles. -/
theorem isFinite_of_summed {d : ℕ} {s : Multiset Float} (h : Summed d s x) (hx : x.isFinite) :
    ∀ a ∈ s, a.isFinite := by
  induction h with
  | zero => simp
  | single => simpa using hx
  | add _ _ ihx ihy =>
    obtain ⟨hx, hy⟩ := isFinite_of_add hx
    intro a ha
    rcases Multiset.mem_add.mp ha with ha | ha
    · exact ihx hx a ha
    · exact ihy hy a ha

theorem toReal_zero : toReal (Scalar.ofNat 0) = 0 :=
  realOf_zero .positive

/-- One more rounding on top of two numbers that are both wrong in proportion to other ones. -/
theorem error_step {z x y a b p q k : ℝ} (hx : |x - a| ≤ (k - 1) * p) (hy : |y - b| ≤ (k - 1) * q)
    (ha : |a| ≤ p) (hb : |b| ≤ q) (hz : |z - (x + y)| ≤ roundoff * |x + y|) :
    |z - (a + b)| ≤ (k * (1 + roundoff) - 1) * (p + q) := by
  have hsum : |x + y| ≤ k * (p + q) :=
    calc |x + y| ≤ |x| + |y| := abs_add_le x y
      _ ≤ (|x - a| + |a|) + (|y - b| + |b|) := by
        linarith [abs_sub_abs_le_abs_sub x a, abs_sub_abs_le_abs_sub y b]
      _ ≤ k * (p + q) := by linarith
  have hround : roundoff * |x + y| ≤ roundoff * (k * (p + q)) :=
    mul_le_mul_of_nonneg_left hsum roundoff_pos.le
  calc |z - (a + b)| = |z - (x + y) + (x - a) + (y - b)| := by
        congr 1
        ring
    _ ≤ |z - (x + y)| + |x - a| + |y - b| := abs_add_three _ _ _
    _ ≤ roundoff * (k * (p + q)) + (k - 1) * p + (k - 1) * q := by linarith
    _ = (k * (1 + roundoff) - 1) * (p + q) := by ring

/-- **The error of a sum in any order** has one factor for every addition above a summand. -/
theorem error_of_summed {d : ℕ} {s : Multiset Float} (h : Summed d s x) (hx : x.isFinite) :
    |toReal x - (s.map toReal).sum| ≤
        ((1 + roundoff) ^ d - 1) * (s.map fun a => |toReal a|).sum ∧
      |(s.map toReal).sum| ≤ (s.map fun a => |toReal a|).sum := by
  induction h with
  | zero => simp [toReal_zero]
  | single d a =>
    have hgrow : (1 : ℝ) ≤ (1 + roundoff) ^ d := one_le_pow₀ (by linarith [roundoff_pos])
    have hscaled := mul_le_mul_of_nonneg_right hgrow (abs_nonneg (toReal a))
    have hnonneg : 0 ≤ ((1 + roundoff) ^ d - 1) * |toReal a| := by linarith
    simpa using hnonneg
  | add _ _ ihx ihy =>
    obtain ⟨hfx, hfy⟩ := isFinite_of_add hx
    obtain ⟨hx', hsx⟩ := ihx hfx
    obtain ⟨hy', hsy⟩ := ihy hfy
    rw [Multiset.map_add, Multiset.map_add, Multiset.sum_add, Multiset.sum_add, pow_succ]
    exact ⟨error_step hx' hy' hsx hsy (add_error hx),
      (abs_add_le _ _).trans (add_le_add hsx hsy)⟩

/-! ### Inner products -/

section Dot

variable {n : ℕ} {c p : Fin n → Float} {ξ m : Fin n → ℝ}

/-- The error of a product with a number that has been rounded already. -/
theorem product_error {a b : Float} {r size : ℝ} (hfinite : (a * b).isFinite) (hr : |r| ≤ size)
    (hb : |toReal b - r| ≤ roundoff * size) :
    |toReal (a * b) - toReal a * r| ≤
      ((1 + roundoff) ^ 2 - 1) * (|toReal a| * size + leastNormal) := by
  have hu := roundoff_pos
  have hleast := leastNormal_pos
  have hrounded : |toReal b| ≤ (1 + roundoff) * size := by
    linarith [abs_sub_abs_le_abs_sub (toReal b) r]
  have hcoordinate : |toReal a * toReal b - toReal a * r| ≤ roundoff * (|toReal a| * size) := by
    rw [← mul_sub, abs_mul]
    have := mul_le_mul_of_nonneg_left hb (abs_nonneg (toReal a))
    linarith
  have hproduct : |toReal (a * b) - toReal a * toReal b| ≤
      roundoff * ((1 + roundoff) * (|toReal a| * size) + leastNormal) := by
    refine (mul_error hfinite).trans (mul_le_mul_of_nonneg_left ?_ hu.le)
    rw [abs_mul]
    have := mul_le_mul_of_nonneg_left hrounded (abs_nonneg (toReal a))
    linarith
  have htriangle := abs_sub_le (toReal (a * b)) (toReal a * toReal b) (toReal a * r)
  have hextra : 0 ≤ (roundoff + roundoff ^ 2) * leastNormal :=
    (mul_pos (add_pos hu (pow_pos hu 2)) hleast).le
  calc |toReal (a * b) - toReal a * r|
      ≤ roundoff * ((1 + roundoff) * (|toReal a| * size) + leastNormal) +
          roundoff * (|toReal a| * size) := by linarith
    _ ≤ roundoff * ((1 + roundoff) * (|toReal a| * size) + leastNormal) +
          roundoff * (|toReal a| * size) + (roundoff + roundoff ^ 2) * leastNormal := by linarith
    _ = ((1 + roundoff) ^ 2 - 1) * (|toReal a| * size + leastNormal) := by ring

/-- The size of a product with a number that has been rounded already. -/
theorem product_size {a b : Float} {r size : ℝ} (hfinite : (a * b).isFinite) (hr : |r| ≤ size)
    (hb : |toReal b - r| ≤ roundoff * size) :
    |toReal (a * b)| ≤ (1 + roundoff) ^ 2 * (|toReal a| * size + leastNormal) := by
  have herror := product_error hfinite hr hb
  have hexact : |toReal a * r| ≤ |toReal a| * size := by
    rw [abs_mul]
    exact mul_le_mul_of_nonneg_left hr (abs_nonneg _)
  linarith [abs_sub_abs_le_abs_sub (toReal (a * b)) (toReal a * r), leastNormal_pos]

/-- A finite inner product is made of finite products, added in some order. -/
theorem summed_of_dot (h : Vec.dot (List.ofFn c) (List.ofFn p) = .ok y) (hy : y.isFinite) :
    Summed (n + 5) (List.ofFn fun j => c j * p j : Multiset Float) y ∧
      ∀ j, (c j * p j).isFinite := by
  rw [Vec.dot, Vec.combine_ofFn, ok_bind, pure_eq_ok_iff] at h
  have hsummed := Vec.total_summed (List.ofFn fun j => c j * p j)
  rw [h, List.length_ofFn] at hsummed
  exact ⟨hsummed, fun j =>
    isFinite_of_summed hsummed hy _ (Multiset.mem_coe.mpr (List.mem_ofFn.mpr ⟨j, rfl⟩))⟩

/-- **The error of an inner product** with coordinates that have been rounded once. -/
theorem dot_error (h : Vec.dot (List.ofFn c) (List.ofFn p) = .ok y) (hy : y.isFinite)
    (hξ : ∀ j, |ξ j| ≤ m j) (hp : ∀ j, |toReal (p j) - ξ j| ≤ roundoff * m j) :
    |toReal y - ∑ j, toReal (c j) * ξ j| ≤
      ((1 + roundoff) ^ (n + 7) - 1) * ∑ j, (|toReal (c j)| * m j + leastNormal) := by
  obtain ⟨hsummed, hfinite⟩ := summed_of_dot h hy
  have hsum := (error_of_summed hsummed hy).1
  simp only [Multiset.map_coe, Multiset.sum_coe, List.map_ofFn, List.sum_ofFn,
    Function.comp_apply] at hsum
  have hgrow : 0 ≤ (1 + roundoff) ^ (n + 5) - 1 :=
    sub_nonneg.mpr (one_le_pow₀ (by linarith [roundoff_pos]))
  have herror (j : Fin n) : |toReal (c j * p j) - toReal (c j) * ξ j| ≤
      ((1 + roundoff) ^ 2 - 1) * (|toReal (c j)| * m j + leastNormal) :=
    product_error (hfinite j) (hξ j) (hp j)
  have hsize (j : Fin n) : |toReal (c j * p j)| ≤
      (1 + roundoff) ^ 2 * (|toReal (c j)| * m j + leastNormal) :=
    product_size (hfinite j) (hξ j) (hp j)
  calc |toReal y - ∑ j, toReal (c j) * ξ j|
      ≤ |toReal y - ∑ j, toReal (c j * p j)| +
          |∑ j, toReal (c j * p j) - ∑ j, toReal (c j) * ξ j| := abs_sub_le _ _ _
    _ ≤ ((1 + roundoff) ^ (n + 5) - 1) * ∑ j, |toReal (c j * p j)| +
          ∑ j, |toReal (c j * p j) - toReal (c j) * ξ j| := by
        rw [← Finset.sum_sub_distrib]
        exact add_le_add hsum (Finset.abs_sum_le_sum_abs _ _)
    _ ≤ ((1 + roundoff) ^ (n + 5) - 1) *
            ∑ j, (1 + roundoff) ^ 2 * (|toReal (c j)| * m j + leastNormal) +
          ∑ j, ((1 + roundoff) ^ 2 - 1) * (|toReal (c j)| * m j + leastNormal) :=
        add_le_add (mul_le_mul_of_nonneg_left (Finset.sum_le_sum fun j _ => hsize j) hgrow)
          (Finset.sum_le_sum fun j _ => herror j)
    _ = ((1 + roundoff) ^ (n + 7) - 1) * ∑ j, (|toReal (c j)| * m j + leastNormal) := by
        rw [← Finset.mul_sum, ← Finset.mul_sum]
        ring

end Dot

end Stepwise.Double
