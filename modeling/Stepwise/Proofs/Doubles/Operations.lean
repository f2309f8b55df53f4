import Mathlib.Data.Nat.Sqrt
import Stepwise.Proofs.Doubles.Nearest

/-!
# Products, quotients and square roots of doubles

The real number that a double stands for is its units over `2¹⁰⁷⁴`
(`Stepwise.Double.toReal`). Of two finite doubles the product stands for a real number that is
nearest to the product of theirs, and the quotient for one nearest to their quotient; so does the
square root of a finite double that is not negative
(`Stepwise.Double.mul_nearest`, `Stepwise.Double.div_nearest`, `Stepwise.Double.sqrt_nearest`).

A quotient and a square root are computed at an exponent that is low enough for the whole number
below them to have all the bits of a mantissa. What is left of them is compared with half a bit in
whole numbers, by the remainder of the division or of the root.
-/

namespace Stepwise.Double

open Float.Model (UnpackedFloat Format)
open Float.Model.UnpackedFloat (Sign Accuracy)

/-! ### The number that a double stands for -/

/-- The real number that an unpacked number stands for; zero if it is undefined. -/
noncomputable def realOf (u : UnpackedFloat) : ℝ := unitsOf u / (2 ^ 1074 : ℕ)

/-- The real number that a double stands for; zero if it is undefined. -/
noncomputable def toReal (x : Float) : ℝ := realOf x.toModel.unpack

theorem realOf_eq (u : UnpackedFloat) : realOf u = unitsOf u / 2 ^ 1074 := by
  rw [realOf, Nat.cast_pow, Nat.cast_ofNat]

theorem scale_pos : (0 : ℝ) < 2 ^ 1074 := pow_pos two_pos _

theorem toReal_mul_scale (x : Float) : toReal x * 2 ^ 1074 = units x := by
  rw [toReal, realOf_eq, div_mul_cancel₀ _ scale_pos.ne']
  rfl

theorem abs_toReal_mul_scale (x : Float) : |toReal x| * 2 ^ 1074 = |(units x : ℝ)| := by
  rw [← toReal_mul_scale, abs_mul, abs_of_pos scale_pos]

theorem toReal_pos_iff {x : Float} : 0 < toReal x ↔ 0 < units x := by
  rw [← mul_pos_iff_of_pos_right scale_pos, toReal_mul_scale, Int.cast_pos]

theorem cast_apply (s : Sign) (n : ℤ) : ((s.apply n : ℤ) : ℝ) = (s.apply 1 : ℤ) * n := by
  cases s with
  | negative => simp [Sign.apply]
  | positive => simp [Sign.apply]

theorem apply_mul (s s' : Sign) : (s * s').apply 1 = s.apply 1 * s'.apply 1 := by
  cases s <;> cases s' <;> rfl

theorem apply_div (s s' : Sign) : (s / s').apply 1 = s.apply 1 * s'.apply 1 := by
  cases s <;> cases s' <;> rfl

theorem cast_size (m : ℕ) {e : ℤ} (he : -1074 ≤ e) :
    (size m e : ℝ) = m * 2 ^ e * 2 ^ 1074 := by
  have hpow : (2 : ℝ) ^ (e + 1074).toNat = 2 ^ e * 2 ^ 1074 := by
    rw [← zpow_natCast, ← zpow_natCast, ← zpow_add₀ two_ne_zero]
    congr 1
    omega
  rw [size]
  push_cast
  rw [hpow, mul_assoc]

theorem realOf_finite (s : Sign) {m : ℕ} {e : ℤ} (hpos : 0 < m) (he : -1074 ≤ e) :
    realOf (.finite s m e hpos) = (s.apply 1 : ℤ) * (m * 2 ^ e) := by
  have hunits : unitsOf (.finite s m e hpos) = s.apply (size m e) := rfl
  rw [realOf_eq, hunits, cast_apply, Int.cast_natCast, cast_size m he, ← mul_assoc,
    mul_div_cancel_right₀ _ (by positivity)]

theorem realOf_zero (s : Sign) : realOf (.zero s) = 0 := by
  have hunits : unitsOf (.zero s) = 0 := rfl
  rw [realOf_eq, hunits, Int.cast_zero, zero_div]

/-- A zero is nearest to zero. -/
theorem nearest_zero (s : Sign) :
    Nearest 0 (unitsOf (stored (.zero s))) ∧ stored (.zero s) ≠ .notANumber := by
  rw [stored_zero]
  have hunits : unitsOf (.zero s) = 0 := rfl
  rw [hunits]
  exact ⟨⟨0, 0, ⟨dvd_zero _, by simp, .inl rfl⟩, by omega⟩, UnpackedFloat.noConfusion⟩

/-! ### Products -/

theorem HeldFinite.mul_nearest {u w : UnpackedFloat} (hu : HeldFinite u) (hw : HeldFinite w) :
    Nearest (realOf u * realOf w * 2 ^ 1074)
        (unitsOf (stored (UnpackedFloat.mul Format.binary64 u w))) ∧
      stored (UnpackedFloat.mul Format.binary64 u w) ≠ .notANumber := by
  cases hu with
  | zero s =>
    rw [realOf_zero, zero_mul, zero_mul]
    cases hw <;> exact nearest_zero _
  | @finite s m e hpos h he =>
    cases hw with
    | zero s' =>
      rw [realOf_zero, mul_zero, zero_mul]
      exact nearest_zero _
    | @finite s' m' e' hpos' h' he' =>
      have hexact : Approximates ((m * m' : ℕ) : ℝ) (m * m') .exact := .exact rfl
      have hvalue : realOf (.finite s m e hpos) * realOf (.finite s' m' e' hpos') * 2 ^ 1074 =
          ((s * s').apply 1 : ℤ) * (((m * m' : ℕ) : ℝ) * 2 ^ (e + e' + 1074)) := by
        rw [realOf_finite s hpos h.le_exponent, realOf_finite s' hpos' h'.le_exponent, apply_mul,
          zpow_add₀ two_ne_zero, zpow_add₀ two_ne_zero, zpow_ofNat]
        push_cast
        generalize (2 : ℝ) ^ 1074 = k
        ring
      rw [hvalue]
      exact hexact.nearest (s * s') (h.le_exponentOf h')

/-- **The product of finite doubles is nearest to the product of their numbers.** -/
theorem mul_nearest {x y : Float} (hx : x.isFinite) (hy : y.isFinite) :
    Nearest (toReal x * toReal y * 2 ^ 1074) (units (x * y)) ∧ ¬ (x * y).isNaN := by
  rw [not_isNaN_iff, units, unpack_mul]
  exact (heldFinite_unpack hx).mul_nearest (heldFinite_unpack hy)

/-! ### Quotients -/

/-- The fraction of a division, compared with half a bit. -/
theorem approximates_div (a : ℕ) {b : ℕ} (hb : 0 < b) :
    Approximates ((a : ℝ) / b) (a / b) (UnpackedFloat.accuracyOfFraction (a % b) b) := by
  have hb' : (0 : ℝ) < b := Nat.cast_pos.mpr hb
  have hsplit : (a : ℝ) / b = (a / b : ℕ) + (a % b : ℕ) / b := by
    rw [div_eq_iff hb'.ne', add_mul, div_mul_cancel₀ _ hb'.ne']
    exact_mod_cast (Nat.div_add_mod' a b).symm
  have hless : (a % b : ℕ) / (b : ℝ) < 1 := by
    rw [div_lt_one hb']
    exact_mod_cast Nat.mod_lt a hb
  rw [UnpackedFloat.accuracyOfFraction, hsplit]
  rcases Nat.eq_zero_or_pos (a % b) with hzero | hpos
  · rw [if_pos hzero, hzero]
    exact .exact (by simp)
  · rw [if_neg hpos.ne']
    have hpos' : (0 : ℝ) < (a % b : ℕ) / b := div_pos (Nat.cast_pos.mpr hpos) hb'
    rcases lt_trichotomy (2 * (a % b)) b with hlt | heq | hgt
    · rw [compare_lt_iff_lt.mpr hlt]
      have hhalf : 2 * ((a % b : ℕ) / (b : ℝ)) < 1 := by
        rw [← mul_div_assoc, div_lt_one hb']
        exact_mod_cast hlt
      exact .lt (by linarith) (by linarith)
    · rw [compare_eq_iff_eq.mpr heq]
      have hhalf : 2 * ((a % b : ℕ) / (b : ℝ)) = 1 := by
        rw [← mul_div_assoc, div_eq_one_iff_eq hb'.ne']
        exact_mod_cast heq
      exact .eq (by linarith)
    · rw [compare_gt_iff_gt.mpr hgt]
      have hhalf : 1 < 2 * ((a % b : ℕ) / (b : ℝ)) := by
        rw [← mul_div_assoc, one_lt_div hb']
        exact_mod_cast hgt
      exact .gt (by linarith) (by linarith)

/-- The exponent that a number between two powers of two is rounded at. -/
theorem targetExponent_eq_max (t : ℤ) :
    Format.binary64.targetExponent t = max (t - 53) (-1074) := by
  show max (t - (1 + 52 : ℕ)) (3 - 2 ^ 10 - (1 + 52 : ℕ)) = _
  omega

/-- A mantissa with all its bits, or the least exponent, does not ask for a lower one. -/
theorem le_exponentOf {m : ℕ} {e : ℤ} (h : 2 ^ 52 ≤ m ∨ e ≤ -1074) : e ≤ exponentOf m e := by
  rw [exponentOf]
  rcases h with hfull | hleast
  · have hlog := (Nat.le_log2 (by omega)).mpr hfull
    omega
  · omega

/-- The quotient has all the bits of a mantissa, unless it is one of the least. -/
theorem le_quotient {m m' : ℕ} {e e' t : ℤ} (hpos : 0 < m) (hpos' : 0 < m')
    (ht : t = min (e - e') (Format.binary64.targetExponent
      (Float.Model.totalExponent m e - Float.Model.totalExponent m' e'))) :
    2 ^ 52 ≤ (m <<< (e - e' - t).toNat) / m' ∨ t ≤ -1074 := by
  rw [targetExponent_eq_max] at ht
  simp only [Float.Model.totalExponent] at ht
  by_cases hleast : t ≤ -1074
  · exact .inr hleast
  · left
    have hlow := Nat.log2_self_le hpos.ne'
    have hhigh := Nat.lt_log2_self (n := m')
    rw [Nat.le_div_iff_mul_le hpos', Nat.shiftLeft_eq]
    calc 2 ^ 52 * m' ≤ 2 ^ 52 * 2 ^ (m'.log2 + 1) := Nat.mul_le_mul_left _ hhigh.le
      _ = 2 ^ (52 + (m'.log2 + 1)) := (Nat.pow_add ..).symm
      _ ≤ 2 ^ (m.log2 + (e - e' - t).toNat) := Nat.pow_le_pow_right Nat.two_pos (by omega)
      _ = 2 ^ m.log2 * 2 ^ (e - e' - t).toNat := Nat.pow_add ..
      _ ≤ m * 2 ^ (e - e' - t).toNat := Nat.mul_le_mul_right _ hlow

/-- A quotient of finite numbers is rounded, at an exponent that is low enough. -/
theorem div_finite (s s' : Sign) {m m' : ℕ} {e e' t : ℤ} (hpos : 0 < m) (hpos' : 0 < m')
    (ht : min (e - e') (Format.binary64.targetExponent
      (Float.Model.totalExponent m e - Float.Model.totalExponent m' e')) = t) :
    UnpackedFloat.div Format.binary64 (.finite s m e hpos) (.finite s' m' e' hpos') =
      UnpackedFloat.roundWithAccuracy Format.binary64 (s / s') ((m <<< (e - e' - t).toNat) / m') t
        (UnpackedFloat.accuracyOfFraction ((m <<< (e - e' - t).toNat) % m') m') := by
  subst ht
  rfl

/-- The quotient that the whole quotient of the mantissas stands for. -/
theorem realOf_div (s s' : Sign) {m m' : ℕ} {e e' t : ℤ} (hpos : 0 < m) (hpos' : 0 < m')
    (he : -1074 ≤ e) (he' : -1074 ≤ e') (ht : t ≤ e - e') :
    realOf (.finite s m e hpos) / realOf (.finite s' m' e' hpos') * 2 ^ 1074 =
      ((s / s').apply 1 : ℤ) * (((m <<< (e - e' - t).toNat : ℕ) : ℝ) / m' * 2 ^ (t + 1074)) := by
  have hscale : (2 : ℝ) ^ (e - e' - t).toNat * 2 ^ t = 2 ^ e / 2 ^ e' := by
    rw [← zpow_natCast, ← zpow_add₀ two_ne_zero, ← zpow_sub₀ two_ne_zero]
    congr 1
    omega
  have hsign : ((s'.apply 1 : ℤ) : ℝ)⁻¹ = (s'.apply 1 : ℤ) := by
    cases s' <;> norm_num [Sign.apply]
  rw [realOf_finite s hpos he, realOf_finite s' hpos' he', apply_div, Nat.shiftLeft_eq,
    zpow_add₀ two_ne_zero, zpow_ofNat]
  push_cast
  generalize (2 : ℝ) ^ 1074 = k
  rw [mul_div_mul_comm, div_eq_mul_inv, hsign, mul_div_mul_comm, ← hscale]
  ring

theorem HeldFinite.div_nearest {u w : UnpackedFloat} (hu : HeldFinite u) (hw : HeldFinite w)
    (hzero : unitsOf w ≠ 0) :
    Nearest (realOf u / realOf w * 2 ^ 1074)
        (unitsOf (stored (UnpackedFloat.div Format.binary64 u w))) ∧
      stored (UnpackedFloat.div Format.binary64 u w) ≠ .notANumber := by
  cases hw with
  | zero s' => exact absurd rfl hzero
  | @finite s' m' e' hpos' h' he' =>
    cases hu with
    | zero s =>
      rw [realOf_zero, zero_div, zero_mul]
      exact nearest_zero _
    | @finite s m e hpos h he =>
      obtain ⟨t, ht⟩ : ∃ t, min (e - e') (Format.binary64.targetExponent
        (Float.Model.totalExponent m e - Float.Model.totalExponent m' e')) = t := ⟨_, rfl⟩
      have hexponent := le_exponentOf (le_quotient hpos hpos' ht.symm)
      rw [div_finite s s' hpos hpos' ht,
        realOf_div s s' hpos hpos' h.le_exponent h'.le_exponent (ht ▸ min_le_left _ _)]
      exact (approximates_div _ hpos').nearest (s / s') hexponent

theorem unpack_div (x y : Float) : (x / y).toModel.unpack =
    stored (UnpackedFloat.div Format.binary64 x.toModel.unpack y.toModel.unpack) :=
  rfl

/-- **The quotient of finite doubles is nearest to the quotient of their numbers.** -/
theorem div_nearest {x y : Float} (hx : x.isFinite) (hy : y.isFinite) (hzero : units y ≠ 0) :
    Nearest (toReal x / toReal y * 2 ^ 1074) (units (x / y)) ∧ ¬ (x / y).isNaN := by
  rw [not_isNaN_iff, units, unpack_div]
  exact (heldFinite_unpack hx).div_nearest (heldFinite_unpack hy) hzero

/-! ### Square roots -/

/-- What the whole root of a number leaves out of the root, by the rest of the number. -/
def rootAccuracy (a : ℕ) : Accuracy :=
  if a - a.sqrt * a.sqrt = 0 then .exact
  else .inexact (if a - a.sqrt * a.sqrt ≤ a.sqrt then .lt else .gt)

/-- The rest of a root, compared with half a bit. -/
theorem approximates_sqrt (a : ℕ) : Approximates √a a.sqrt (rootAccuracy a) := by
  rw [rootAccuracy]
  have hlow := Nat.sqrt_le a
  have hhigh := Nat.lt_succ_sqrt a
  generalize a.sqrt = r at hlow hhigh ⊢
  have hr : (0 : ℝ) ≤ r := Nat.cast_nonneg r
  have hhigh' : (a : ℝ) < (r + 1) ^ 2 := by
    rw [pow_two]
    exact_mod_cast hhigh
  by_cases hzero : a - r * r = 0
  · rw [if_pos hzero]
    have ha : a = r ^ 2 := by
      rw [pow_two]
      omega
    refine .exact ?_
    rw [ha, Nat.cast_pow, Real.sqrt_sq hr]
  · rw [if_neg hzero]
    by_cases hhalf : a - r * r ≤ r
    · rw [if_pos hhalf]
      have habove : (r : ℝ) ^ 2 < a := by
        rw [pow_two]
        exact_mod_cast (show r * r < a by omega)
      have hbelow : (a : ℝ) ≤ r * r + r := by exact_mod_cast (show a ≤ r * r + r by omega)
      have hroot : √a < r + 1 / 2 := (Real.sqrt_lt' (by linarith)).mpr (by nlinarith)
      exact .lt ((Real.lt_sqrt hr).mpr habove) (by linarith)
    · rw [if_neg hhalf]
      have habove : (r : ℝ) * r + r + 1 ≤ a := by
        exact_mod_cast (show r * r + r + 1 ≤ a by omega)
      have hroot : (r : ℝ) + 1 / 2 < √a := (Real.lt_sqrt (by linarith)).mpr (by nlinarith)
      exact .gt (by linarith) ((Real.sqrt_lt' (by linarith)).mpr hhigh')

/-- The root has all the bits of a mantissa, unless it is one of the least. -/
theorem le_root {m : ℕ} {e t : ℤ} (hpos : 0 < m)
    (ht : t = min (e.ediv 2)
      (Format.binary64.targetExponent ((Float.Model.totalExponent m e + 1).ediv 2))) :
    2 ^ 52 ≤ (m <<< (e - 2 * t).toNat).sqrt ∨ t ≤ -1074 := by
  rw [targetExponent_eq_max] at ht
  change t = min (e / 2) (max (((m.log2 : ℤ) + 1 + e + 1) / 2 - 53) (-1074)) at ht
  by_cases hleast : t ≤ -1074
  · exact .inr hleast
  · left
    have hlow := Nat.log2_self_le hpos.ne'
    rw [Nat.le_sqrt, ← Nat.pow_add, Nat.shiftLeft_eq]
    calc 2 ^ (52 + 52) ≤ 2 ^ (m.log2 + (e - 2 * t).toNat) :=
          Nat.pow_le_pow_right Nat.two_pos (by omega)
      _ = 2 ^ m.log2 * 2 ^ (e - 2 * t).toNat := Nat.pow_add ..
      _ ≤ m * 2 ^ (e - 2 * t).toNat := Nat.mul_le_mul_right _ hlow

/-- The root of a positive finite number is rounded, at an exponent that is low enough. -/
theorem sqrt_finite {m : ℕ} {e t : ℤ} (hpos : 0 < m)
    (ht : min (e.ediv 2) (Format.binary64.targetExponent
      ((Float.Model.totalExponent m e + 1).ediv 2)) = t) :
    UnpackedFloat.sqrt Format.binary64 (.finite .positive m e hpos) =
      UnpackedFloat.roundWithAccuracy Format.binary64 .positive (m <<< (e - 2 * t).toNat).sqrt t
        (rootAccuracy (m <<< (e - 2 * t).toNat)) := by
  subst ht
  rfl

/-- The root that the whole root of the mantissa stands for. -/
theorem sqrt_realOf {m : ℕ} {e t : ℤ} (hpos : 0 < m) (he : -1074 ≤ e) (ht : t ≤ e / 2) :
    √(realOf (.finite .positive m e hpos)) * 2 ^ 1074 =
      (Sign.positive.apply 1 : ℤ) *
        (√((m <<< (e - 2 * t).toNat : ℕ) : ℝ) * 2 ^ (t + 1074)) := by
  have hscale : (2 : ℝ) ^ e = 2 ^ (e - 2 * t).toNat * (2 ^ t) ^ 2 := by
    rw [← zpow_natCast, ← zpow_natCast, ← zpow_mul, ← zpow_add₀ two_ne_zero]
    congr 1
    push_cast
    omega
  have hone : Sign.positive.apply 1 = 1 := rfl
  rw [realOf_finite .positive hpos he, hone, Int.cast_one, one_mul, one_mul, hscale, ← mul_assoc,
    Real.sqrt_mul (by positivity), Real.sqrt_sq (zpow_pos two_pos t).le, Nat.shiftLeft_eq,
    zpow_add₀ two_ne_zero, zpow_ofNat, mul_assoc]
  push_cast
  rfl

theorem HeldFinite.sqrt_nearest {u : UnpackedFloat} (hu : HeldFinite u) (hnonneg : 0 ≤ unitsOf u) :
    Nearest (√(realOf u) * 2 ^ 1074)
        (unitsOf (stored (UnpackedFloat.sqrt Format.binary64 u))) ∧
      stored (UnpackedFloat.sqrt Format.binary64 u) ≠ .notANumber := by
  cases hu with
  | zero s =>
    rw [realOf_zero, Real.sqrt_zero, zero_mul]
    exact nearest_zero _
  | @finite s m e hpos h he =>
    cases s with
    | negative =>
      have hneg : unitsOf (.finite .negative m e hpos) = -(size m e : ℤ) := rfl
      have hsize := h.size_pos
      omega
    | positive =>
      obtain ⟨t, ht⟩ : ∃ t, min (e.ediv 2) (Format.binary64.targetExponent
        ((Float.Model.totalExponent m e + 1).ediv 2)) = t := ⟨_, rfl⟩
      have hexponent := le_exponentOf (le_root hpos ht.symm)
      rw [sqrt_finite hpos ht, sqrt_realOf hpos h.le_exponent (ht ▸ min_le_left _ _)]
      exact (approximates_sqrt (m <<< (e - 2 * t).toNat)).nearest .positive hexponent

theorem unpack_sqrt (x : Float) : x.sqrt.toModel.unpack =
    stored (UnpackedFloat.sqrt Format.binary64 x.toModel.unpack) :=
  rfl

/-- **The square root of a finite double is nearest to the root of its number**, if that is not
negative. -/
theorem sqrt_nearest {x : Float} (hx : x.isFinite) (hnonneg : 0 ≤ units x) :
    Nearest (√(toReal x) * 2 ^ 1074) (units x.sqrt) ∧ ¬ x.sqrt.isNaN := by
  rw [not_isNaN_iff, units, unpack_sqrt]
  exact (heldFinite_unpack hx).sqrt_nearest hnonneg

end Stepwise.Double
