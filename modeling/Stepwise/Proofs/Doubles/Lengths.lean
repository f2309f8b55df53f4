import Stepwise.Proofs.Doubles.Errors

/-!
# The length of a vector of doubles

The length of a vector is the square root of the sum of the squares of its components, and every
one of these operations is rounded. It is no less than the absolute value of a component all the
same (`Stepwise.Double.le_norm`), unless the square of the component is one of the least doubles
and has lost bits, or the length is undefined. It is undefined if a component is
(`Stepwise.Double.isNaN_norm`).

What the square of a component loses by rounding is so little that the root of the rest is nearer
to the component than to any other double (`Stepwise.Double.le_units_sqrt`), since a double is at
least `2⁻⁵³` of itself above the next one below it (`Stepwise.Double.Representable.le_of_lt`).
Adding other squares takes nothing away.
-/

namespace Stepwise.Double

open Float.Model (UnpackedFloat Format)
open Float.Model.UnpackedFloat (Sign)

/-! ### Neighbours -/

/-- A large number has its greatest bit at `2 ^ 53 * 2 ^ j`. -/
theorem exists_greatest_bit {d : ℤ} (hlarge : 2 ^ 53 < d) :
    ∃ j : ℕ, 2 ^ 53 * 2 ^ j ≤ d ∧ d < 2 ^ 54 * 2 ^ j := by
  have hlog := (Nat.le_log2 (by omega)).mpr (by omega : 2 ^ 53 ≤ d.natAbs)
  obtain ⟨j, hj⟩ : ∃ j, d.natAbs.log2 = 53 + j := ⟨_, (Nat.add_sub_cancel' hlog).symm⟩
  have hlow : 2 ^ (53 + j) ≤ d.natAbs := hj ▸ Nat.log2_self_le (by omega)
  have hhigh : d.natAbs < 2 ^ (53 + j + 1) := hj ▸ Nat.lt_log2_self
  have hnatAbs : (d.natAbs : ℤ) = d := by omega
  refine ⟨j, ?_, ?_⟩
  · rw [← pow_add, ← hnatAbs]
    exact_mod_cast hlow
  · rw [← pow_add, ← hnatAbs, show 54 + j = 53 + j + 1 by omega]
    exact_mod_cast hhigh

/-- A double as large as that has its least bit at `2 * 2 ^ j`. -/
theorem Representable.two_mul_dvd {d : ℤ} (hd : Representable d) {j : ℕ}
    (h : 2 ^ 53 * 2 ^ j ≤ d) : 2 * 2 ^ j ∣ d := by
  have hpow : (2 : ℤ) ^ (52 + (j + 1)) = 2 ^ 53 * 2 ^ j := by ring
  rw [← pow_succ']
  exact hd.dvd_of_le (hpow.trans_le (h.trans (le_abs_self d)))

/-- **A double is in proportion above the doubles below it.** -/
theorem Representable.le_of_lt {d d' : ℤ} (hd : Representable d) (hd' : Representable d')
    (hpos : 0 < d') (hlt : d < d') : 2 ^ 53 * d ≤ (2 ^ 53 - 1) * d' := by
  suffices hgap : d' ≤ 2 ^ 53 * (d' - d) by linarith
  rcases le_or_gt d' (2 ^ 53) with hsmall | hlarge
  · omega
  · obtain ⟨j, hlow, hhigh⟩ := exists_greatest_bit hlarge
    have hdvd' := hd'.two_mul_dvd hlow
    have hdvd (h : 2 ^ 53 * 2 ^ j ≤ d) : 2 * 2 ^ j ∣ d := hd.two_mul_dvd h
    have hdvd_half (h : 2 ^ 52 * 2 ^ j ≤ d) : 2 ^ j ∣ d :=
      hd.dvd_of_le ((pow_add 2 52 j).trans_le (h.trans (le_abs_self d)))
    have hone : (0 : ℤ) < 2 ^ j := by positivity
    generalize (2 : ℤ) ^ j = k at *
    rcases le_or_gt (2 ^ 53 * k) d with hsame | hless
    · have hgap := Int.le_of_dvd (by omega) (dvd_sub hdvd' (hdvd hsame))
      omega
    · -- Below the greatest bit the gap is half as wide, which matters only below a power of two.
      rcases hlow.eq_or_lt with heq | hlt'
      · rcases le_or_gt (2 ^ 52 * k) d with hhalf | hhalf
        · have hgap := Int.le_of_dvd (by omega)
            (dvd_sub ((dvd_mul_left k 2).trans hdvd') (hdvd_half hhalf))
          omega
        · omega
      · have hgap := Int.le_of_dvd (by omega)
          (dvd_sub hdvd' (mul_dvd_mul_right (by norm_num : (2 : ℤ) ∣ 2 ^ 53) k))
        omega

/-! ### The root of a square -/

/-- The least number with a square that has all its bits. -/
noncomputable def leastRoot : ℝ := 1 / (2 ^ 511 : ℕ)

theorem leastRoot_eq : leastRoot = 1 / 2 ^ 511 := by
  rw [leastRoot, Nat.cast_pow, Nat.cast_ofNat]

theorem leastRoot_pos : 0 < leastRoot := by
  rw [leastRoot_eq]
  positivity

theorem leastRoot_mul_self : leastRoot * leastRoot = leastNormal := by
  have hsquare (k : ℕ) : (1 / 2 ^ k : ℝ) * (1 / 2 ^ k) = 1 / 2 ^ (k + k) := by
    rw [pow_add, one_div_mul_one_div]
  rw [leastRoot_eq, leastNormal_eq]
  exact hsquare 511

/-- A square that is not one of the least loses little by rounding. -/
theorem mul_self_le {p : ℤ} {a : ℝ} (hwide : leastRoot ≤ a) (hp : Nearest (a * a * 2 ^ 1074) p)
    (hlt : p < limit) : 2 ^ 53 * (a * a * 2 ^ 1074) ≤ (2 ^ 53 + 1) * p := by
  have hnormal : 2 ^ 52 ≤ a * a * 2 ^ 1074 := by
    rw [← leastNormal_mul_scale, ← leastRoot_mul_self]
    have hpos := leastRoot_pos
    exact mul_le_mul_of_nonneg_right
      (mul_le_mul hwide hwide hpos.le (hpos.le.trans hwide)) scale_pos.le
  have hlimit : a * a * 2 ^ 1074 ≤ limit := by
    by_contra! hbeyond
    have := hp.le representable_limit (by exact_mod_cast hbeyond.le)
    omega
  have hsub := hp.sub_le hnormal hlimit
  generalize a * a * 2 ^ 1074 = x at hsub ⊢
  linarith

/-- **The root of what a square is rounded to is no less than the number**: if it were rounded to
a smaller double, it would be nearer to the number itself. -/
theorem le_of_mul_self {d p y : ℤ} {a q : ℝ} (hd : Representable d) (hda : d = a * 2 ^ 1074)
    (hwide : leastRoot ≤ a) (hp : Nearest (a * a * 2 ^ 1074) p) (hlt : p < limit)
    (hpq : p ≤ q * 2 ^ 1074) (hy : Representable y) (hroot : Nearest (√q * 2 ^ 1074) y) :
    d ≤ y := by
  by_contra! hyd
  have hloss := mul_self_le hwide hp hlt
  have ha : 0 < a := leastRoot_pos.trans_le hwide
  have hscale := scale_pos
  have hdpos : (0 : ℝ) < d := hda ▸ mul_pos ha hscale
  have hgap := hy.le_of_lt hd (by exact_mod_cast hdpos) hyd
  have hgap' : (2 : ℝ) ^ 53 * y ≤ (2 ^ 53 - 1) * d := by exact_mod_cast hgap
  have hmiddle := hroot.two_mul_le le_rfl hyd hd
  generalize (2 : ℝ) ^ 1074 = k at *
  -- The root is at most in the middle between the number and the next one below.
  have hlow : √q ≤ (1 - 1 / 2 ^ 54) * a := by
    refine le_of_mul_le_mul_right ?_ hscale
    linarith
  have hhigh : a * a ≤ (1 + 1 / 2 ^ 53) * q := by
    refine le_of_mul_le_mul_right ?_ hscale
    linarith
  have hq : 0 < q := by
    have := mul_pos ha ha
    linarith
  have hsquare : q ≤ ((1 - 1 / 2 ^ 54) * a) ^ 2 := by
    rw [← Real.sq_sqrt hq.le]
    exact pow_le_pow_left₀ (Real.sqrt_nonneg q) hlow 2
  have hshrinks : (1 + 1 / 2 ^ 53 : ℝ) * (1 - 1 / 2 ^ 54) ^ 2 < 1 := by norm_num
  have hstrict := mul_lt_mul_of_pos_right hshrinks (mul_pos ha ha)
  linarith only [hstrict, hhigh, hsquare]

variable {g x y : Float}

/-- The square of an infinite number is infinite. -/
theorem units_mul_self_of_infinite (hg : ¬ g.isFinite) (hnan : ¬ g.isNaN) :
    units (g * g) = limit := by
  obtain ⟨s, hs⟩ := unpack_eq_infinity hg hnan
  rw [units, unpack_mul, hs]
  cases s <;> exact congrArg unitsOf (stored_infinity .positive)

/-- A square has no negative units. -/
theorem units_mul_self_nonneg (x : Float) : 0 ≤ units (x * x) := by
  by_cases hnan : x.isNaN
  · rw [units, unpack_mul, isNaN_iff.mp hnan]
    exact (congrArg unitsOf stored_notANumber).ge
  by_cases hx : x.isFinite
  · refine (mul_nearest hx hx).1.le representable_zero ?_
    rw [Int.cast_zero]
    exact mul_nonneg (mul_self_nonneg _) scale_pos.le
  · rw [units_mul_self_of_infinite hx hnan]
    exact Int.natCast_nonneg limit

/-- The root of an infinite number that is not negative is infinite. -/
theorem units_sqrt_of_infinite (hx : ¬ x.isFinite) (hnan : ¬ x.isNaN) (hnonneg : 0 ≤ units x) :
    units x.sqrt = limit := by
  obtain ⟨s, hs⟩ := unpack_eq_infinity hx hnan
  rw [units, unpack_sqrt, hs]
  cases s with
  | positive => exact congrArg unitsOf (stored_infinity .positive)
  | negative =>
    have hneg : units x = -limit := by
      rw [units, hs]
      rfl
    have := limit_pos
    omega

/-- **The root of what is no less than a square is no less than the number squared**, unless the
square is one of the least doubles. -/
theorem le_units_sqrt (hg : ¬ g.isNaN) (hwide : leastRoot ≤ |toReal g|) (hx : ¬ x.isNaN)
    (hle : units (g * g) ≤ units x) : |units g| ≤ units x.sqrt := by
  have hrepresentable : Representable |units g| := by
    rw [← units_abs]
    exact representable_units _
  have hnonneg : 0 ≤ units x := (units_mul_self_nonneg g).trans hle
  by_cases hx' : x.isFinite
  · have hlt : units (g * g) < limit := hle.trans_lt ((le_abs_self _).trans_lt (abs_units_lt hx'))
    have hg' : g.isFinite := by
      by_contra hinfinite
      exact hlt.ne (units_mul_self_of_infinite hinfinite hg)
    have hproduct := (mul_nearest hg' hg').1
    rw [← abs_mul_abs_self] at hproduct
    have hunits : ((|units g| : ℤ) : ℝ) = |toReal g| * 2 ^ 1074 := by
      rw [Int.cast_abs, abs_toReal_mul_scale]
    have hbound : (units (g * g) : ℝ) ≤ toReal x * 2 ^ 1074 := by
      rw [toReal_mul_scale]
      exact_mod_cast hle
    exact le_of_mul_self hrepresentable hunits hwide hproduct hlt hbound (representable_units _)
      (sqrt_nearest hx' hnonneg).1
  · rw [units_sqrt_of_infinite hx' hx hnonneg]
    exact (le_abs_self _).trans hrepresentable.abs_le_limit

/-! ### Sums of squares -/

/-- An undefined summand makes a sum in any order undefined. -/
theorem isNaN_of_summed {d : ℕ} {s : Multiset Float} (h : Summed d s x) {a : Float} (ha : a ∈ s)
    (hnan : a.isNaN) : x.isNaN := by
  induction h with
  | zero => exact absurd ha (Multiset.notMem_zero a)
  | single => rwa [← Multiset.mem_singleton.mp ha]
  | add _ _ ihx ihy =>
    rcases Multiset.mem_add.mp ha with ha | ha
    · exact isNaN_add (.inl (ihx ha))
    · exact isNaN_add (.inr (ihy ha))

/-- An infinite number stays what it is when it is added to itself. -/
theorem add_self_of_infinite (hx : ¬ x.isFinite) (hnan : ¬ x.isNaN) : x + x = x := by
  refine eq_of_unpack_eq ?_
  obtain ⟨s, hs⟩ := unpack_eq_infinity hx hnan
  rw [unpack_add, hs]
  cases s <;> exact stored_infinity _

/-- A sum of two numbers that are not negative is no less than either. -/
theorem le_units_add_of_nonneg (hx : 0 ≤ units x) (hy : 0 ≤ units y) (hnan : ¬ (x + y).isNaN) :
    units x ≤ units (x + y) ∧ units y ≤ units (x + y) := by
  have hxnan : ¬ x.isNaN := fun h => hnan (isNaN_add (.inl h))
  have hynan : ¬ y.isNaN := fun h => hnan (isNaN_add (.inr h))
  have hxlimit := (le_abs_self _).trans (representable_units x).abs_le_limit
  have hylimit := (le_abs_self _).trans (representable_units y).abs_le_limit
  by_cases hfx : x.isFinite
  · by_cases hfy : y.isFinite
    · have hsum := (add_rounded hfx hfy).1
      exact ⟨hsum.le (representable_units x) (by omega), hsum.le (representable_units y) (by omega)⟩
    · rw [add_eq_right hfx hfy hynan]
      rcases units_infinite hfy hynan with h | h <;> omega
  · have hsum : x + y = x := by
      by_cases hfy : y.isFinite
      · exact add_eq_self hfx hxnan hfy
      · have hxy : units x = units y := by
          rcases units_infinite hfx hxnan with h | h <;>
            rcases units_infinite hfy hynan with h' | h' <;> omega
        have hzero : units x ≠ 0 := by
          have := limit_pos
          rcases units_infinite hfx hxnan with h | h <;> omega
        rw [← eq_of_units_eq hzero hxy]
        exact add_self_of_infinite hfx hxnan
    rw [hsum]
    rcases units_infinite hfx hxnan with h | h <;> omega

/-- **A sum of numbers that are not negative is no less than any of them**, in any order. -/
theorem le_of_summed {d : ℕ} {s : Multiset Float} (h : Summed d s x)
    (hnonneg : ∀ a ∈ s, 0 ≤ units a) (hnan : ¬ x.isNaN) :
    0 ≤ units x ∧ ∀ a ∈ s, units a ≤ units x := by
  induction h with
  | zero => exact ⟨le_rfl, by simp⟩
  | single d a => exact ⟨hnonneg a (Multiset.mem_singleton_self a), by simp⟩
  | add _ _ ihx ihy =>
    obtain ⟨hx, hxs⟩ := ihx (fun a ha => hnonneg a (Multiset.mem_add.mpr (.inl ha)))
      fun h => hnan (isNaN_add (.inl h))
    obtain ⟨hy, hys⟩ := ihy (fun a ha => hnonneg a (Multiset.mem_add.mpr (.inr ha)))
      fun h => hnan (isNaN_add (.inr h))
    obtain ⟨hleft, hright⟩ := le_units_add_of_nonneg hx hy hnan
    refine ⟨hx.trans hleft, fun a ha => ?_⟩
    rcases Multiset.mem_add.mp ha with ha | ha
    · exact (hxs a ha).trans hleft
    · exact (hys a ha).trans hright

/-! ### Lengths -/

/-- The square of a length is the sum of the squares in some order. -/
theorem normSquared_summed (v : Vec Float) :
    Summed (v.length + 6) ((v.map fun a => a * a : List Float) : Multiset Float)
      (Vec.normSquared v) := by
  have hsum := (Summed.zero _).add (Vec.total_summed (v.map fun a => a * a))
  rwa [zero_add, List.length_map] at hsum

theorem isNaN_sqrt (hx : x.isNaN) : x.sqrt.isNaN := by
  rw [isNaN_iff, unpack_sqrt, isNaN_iff.mp hx]
  exact stored_notANumber

theorem isNaN_mul_self (hx : x.isNaN) : (x * x).isNaN := by
  rw [isNaN_iff, unpack_mul, isNaN_iff.mp hx]
  exact stored_notANumber

/-- A vector with an undefined component has no defined length. -/
theorem isNaN_norm {v : Vec Float} (hg : g ∈ v) (hnan : g.isNaN) : (Vec.norm v).isNaN :=
  isNaN_sqrt (isNaN_of_summed (normSquared_summed v)
    (Multiset.mem_coe.mpr (List.mem_map_of_mem hg)) (isNaN_mul_self hnan))

/-- **A length is no less than the absolute value of a component**, if it is defined and the
component is not so small that its square loses bits. -/
theorem le_norm {v : Vec Float} (hg : g ∈ v) (hwide : leastRoot ≤ |toReal g|)
    (hnan : ¬ (Vec.norm v).isNaN) : |units g| ≤ units (Vec.norm v) := by
  have hsquared : ¬ (Vec.normSquared v).isNaN := fun h => hnan (isNaN_sqrt h)
  have hsquares : ∀ a ∈ ((v.map fun a => a * a : List Float) : Multiset Float), 0 ≤ units a := by
    intro a ha
    obtain ⟨b, -, rfl⟩ := List.mem_map.mp (Multiset.mem_coe.mp ha)
    exact units_mul_self_nonneg b
  have hle := (le_of_summed (normSquared_summed v) hsquares hsquared).2 (g * g)
    (Multiset.mem_coe.mpr (List.mem_map_of_mem hg))
  exact le_units_sqrt (fun h => hnan (isNaN_norm hg h)) hwide hsquared hle

end Stepwise.Double
