import Mathlib.Algebra.Order.Ring.Abs
import Mathlib.Algebra.Order.Group.Unbundled.Int
import Mathlib.Tactic.Positivity
import Stepwise.Proofs.Doubles.Units

/-!
# Rounding to doubles

The sum of two doubles is computed as a mantissa and an exponent, and then rounded: bits are
shifted out of the mantissa until no more than 53 are left, two more bits remember what was
shifted out, and a mantissa that has become too long by rounding is shifted once more. The
result is stored, and only there an exponent beyond the greatest one turns into infinity.

In units all of it is one statement (`Stepwise.Double.Rounded`): the result is a nearest one
among the multiples of the least bit that there is room for, or an infinity beyond the greatest
double. So rounding does not pass a number that a double can have
(`Stepwise.Double.Rounded.le`, `Stepwise.Double.Rounded.ge`), and leaves such a number as it is.

| stage | what it gives | theorem |
|---|---|---|
| shifting | the nearest multiple | `Stepwise.Double.Shifted.isNearest` |
| rounding | the canonical form | `Stepwise.Double.roundWithAccuracy_sized` |
| storing | the same units, up to infinity | `Stepwise.Double.Sized.stored` |
| all three | a rounded number | `Stepwise.Double.normalize_rounded` |
-/

namespace Stepwise.Double

open Float.Model (UnpackedFloat Format)
open Float.Model.UnpackedFloat (Sign ExtendedMantissa)

/-! ### Nearest multiples -/

/-- A multiple of `d` with no other one nearer to a number. -/
structure IsNearest (d : ℕ) (x y : ℤ) : Prop where
  /-- It is a multiple. -/
  dvd : (d : ℤ) ∣ y
  /-- It is at most half of `d` away. -/
  near : 2 * |y - x| ≤ d

namespace IsNearest

variable {d : ℕ} {x y c : ℤ}

/-- A multiple that is not above the number is not above the nearest one. -/
theorem le_of_le (h : IsNearest d x y) (hc : (d : ℤ) ∣ c) (hle : c ≤ x) : c ≤ y := by
  by_contra! hlt
  have hgap : (d : ℤ) ≤ c - y := Int.le_of_dvd (by omega) (dvd_sub hc h.dvd)
  have hnear := h.near
  have habs := neg_abs_le (y - x)
  omega

theorem neg (h : IsNearest d x y) : IsNearest d (-x) (-y) := by
  refine ⟨h.dvd.neg_right, ?_⟩
  rw [show -y - -x = -(y - x) by ring, abs_neg]
  exact h.near

/-- The nearest multiples keep their place when everything is scaled. -/
theorem mul (h : IsNearest d x y) (c : ℕ) : IsNearest (d * c) (x * c) (y * c) := by
  refine ⟨?_, ?_⟩
  · rw [Nat.cast_mul]
    exact mul_dvd_mul_right h.dvd _
  · rw [← sub_mul, abs_mul, Nat.abs_cast, Nat.cast_mul, ← mul_assoc]
    exact mul_le_mul_of_nonneg_right h.near (Int.natCast_nonneg c)

end IsNearest

/-! ### Shifting -/

/-- What is left of `m` when its last `n` bits are shifted out. The round bit tells whether they
were half of the next one or more, and the sticky bit whether they were more or less than that,
and not nothing. -/
structure Shifted (m n : ℕ) (x : ExtendedMantissa) : Prop where
  /-- The other bits. -/
  mantissa : x.mantissa = m / 2 ^ n
  /-- The round bit. -/
  round : x.roundBit = decide (2 ^ n ≤ 2 * (m % 2 ^ n))
  /-- The sticky bit. -/
  sticky : x.stickyBit = decide (2 * (m % 2 ^ n) % 2 ^ n ≠ 0)

theorem Shifted.succ {m n : ℕ} {x : ExtendedMantissa} (h : Shifted m n x) :
    Shifted m (n + 1) x.shiftRightOne := by
  have hrest := Nat.mod_lt m (Nat.two_pow_pos n)
  have hsplit : m % 2 ^ (n + 1) = m % 2 ^ n + 2 ^ n * (m / 2 ^ n % 2) := Nat.mod_pow_succ
  have hdouble : 2 ^ (n + 1) = 2 * 2 ^ n := Nat.pow_succ'
  have htwice : 2 * (m % 2 ^ (n + 1)) % 2 ^ (n + 1) = 2 * (m % 2 ^ n) := by
    rw [hsplit, hdouble, Nat.mul_mod_mul_left, Nat.add_mul_mod_self_left, Nat.mod_mod]
  refine ⟨?_, ?_, ?_⟩
  · rw [ExtendedMantissa.shiftRightOne, h.mantissa, Nat.div_div_eq_div_mul, Nat.pow_succ]
  · rw [ExtendedMantissa.shiftRightOne, h.mantissa, hsplit, hdouble, Bool.eq_iff_iff, bne_iff_ne,
      decide_eq_true_iff]
    rcases Nat.mod_two_eq_zero_or_one (m / 2 ^ n) with hbit | hbit
    · rw [hbit]
      omega
    · rw [hbit]
      omega
  · rw [ExtendedMantissa.shiftRightOne, h.round, h.sticky, htwice, ← Bool.decide_or]
    refine decide_eq_decide.mpr ⟨fun hor => ?_, fun hrest' => ?_⟩
    · rcases hor with hround | hsticky
      · have := Nat.two_pow_pos n
        omega
      · intro hzero
        exact hsticky (by rw [hzero, Nat.zero_mod])
    · by_cases hround : 2 ^ n ≤ 2 * (m % 2 ^ n)
      · exact .inl hround
      · exact .inr (by rwa [Nat.mod_eq_of_lt (by omega)])

/-- Bits are shifted out one by one. -/
theorem Shifted.shift {m k : ℕ} {x : ExtendedMantissa} (h : Shifted m k x) (n : ℕ) :
    Shifted m (k + n) (x >>> n) := by
  induction n with
  | zero => exact h
  | succ n ih => exact ih.succ

theorem shifted_repeat (m n : ℕ) :
    Shifted m n (ExtendedMantissa.ofMantissaAndAccuracy m .exact >>> n) := by
  have hnone : Shifted m 0 (ExtendedMantissa.ofMantissaAndAccuracy m .exact) :=
    ⟨(Nat.div_one m).symm, by simp [Nat.mod_one]; rfl, by simp [Nat.mod_one]; rfl⟩
  have hshift := hnone.shift n
  rwa [Nat.zero_add] at hshift

theorem isNearest_of_le {d : ℕ} {x r : ℕ} (hlow : 2 * x ≤ 2 * (r * d) + d)
    (hhigh : 2 * (r * d) ≤ 2 * x + d) : IsNearest d x (r * d : ℕ) := by
  refine ⟨Int.natCast_dvd_natCast.mpr (Nat.dvd_mul_left d r), ?_⟩
  rw [← abs_two, ← abs_mul]
  exact abs_le.mpr ⟨by omega, by omega⟩

/-- **Rounding after a shift gives a nearest multiple.** -/
theorem Shifted.isNearest {m n : ℕ} {x : ExtendedMantissa} (h : Shifted m n x) :
    IsNearest (2 ^ n) m (x.roundedMantissa * 2 ^ n : ℕ) := by
  have hrest := Nat.mod_lt m (Nat.two_pow_pos n)
  have hsum : m / 2 ^ n * 2 ^ n + m % 2 ^ n = m := Nat.div_add_mod' m (2 ^ n)
  have hnext : (m / 2 ^ n + 1) * 2 ^ n = m / 2 ^ n * 2 ^ n + 2 ^ n := Nat.succ_mul _ _
  obtain ⟨mantissa, round, sticky⟩ := x
  obtain ⟨hmantissa, hround, hsticky⟩ := h
  dsimp only at hmantissa hround hsticky
  subst hmantissa
  cases round with
  | false =>
    have hless : 2 * (m % 2 ^ n) < 2 ^ n := not_le.mp (of_decide_eq_false hround.symm)
    cases sticky <;> exact isNearest_of_le (r := m / 2 ^ n) (by omega) (by omega)
  | true =>
    have hmore : 2 ^ n ≤ 2 * (m % 2 ^ n) := of_decide_eq_true hround.symm
    cases sticky with
    | false =>
      -- Exactly half is left out, so both neighbours are nearest.
      have hrem : 2 * (m % 2 ^ n) % 2 ^ n = 0 := not_not.mp (of_decide_eq_false hsticky.symm)
      rw [Nat.mod_eq_sub_mod hmore, Nat.mod_eq_of_lt (by omega)] at hrem
      show IsNearest _ _ ((m / 2 ^ n + m / 2 ^ n % 2) * 2 ^ n : ℕ)
      rcases Nat.mod_two_eq_zero_or_one (m / 2 ^ n) with heven | hodd
      · rw [heven, Nat.add_zero]
        exact isNearest_of_le (by omega) (by omega)
      · rw [hodd]
        exact isNearest_of_le (by omega) (by omega)
    | true => exact isNearest_of_le (r := m / 2 ^ n + 1) (by omega) (by omega)

/-- The rounded mantissa is the shifted one or the next. -/
theorem Shifted.roundedMantissa_mem {m n : ℕ} {x : ExtendedMantissa} (h : Shifted m n x) :
    m / 2 ^ n ≤ x.roundedMantissa ∧ x.roundedMantissa ≤ m / 2 ^ n + 1 := by
  rw [← h.mantissa]
  obtain ⟨mantissa, round, sticky⟩ := x
  cases round with
  | false => cases sticky <;> exact ⟨le_rfl, Nat.le_succ _⟩
  | true =>
    cases sticky with
    | false =>
      show mantissa ≤ mantissa + mantissa % 2 ∧ mantissa + mantissa % 2 ≤ mantissa + 1
      omega
    | true => exact ⟨Nat.le_succ _, le_rfl⟩

/-! ### Rounding to a mantissa -/

/-- The exponent that rounding aims at: with 53 bits in the mantissa, or the least one. -/
def exponentOf (m : ℕ) (e : ℤ) : ℤ := max (m.log2 + e - 52) (-1074)

theorem targetExponent_eq (m : ℕ) (e : ℤ) :
    Format.binary64.targetExponent (Float.Model.totalExponent m e) = exponentOf m e := by
  show max ((m.log2 : ℤ) + 1 + e - (1 + 52 : ℕ)) (3 - 2 ^ 10 - (1 + 52 : ℕ)) = _
  rw [exponentOf]
  omega

theorem shiftToTargetExponent_eq (m : ℕ) (e : ℤ) (accuracy : UnpackedFloat.Accuracy) :
    UnpackedFloat.shiftToTargetExponent Format.binary64 m e accuracy =
      (ExtendedMantissa.ofMantissaAndAccuracy m accuracy >>> (exponentOf m e - e).toNat,
        e + (exponentOf m e - e).toNat) := by
  rw [UnpackedFloat.shiftToTargetExponent, targetExponent_eq]
  rfl

/-- A mantissa that has been rounded up to a power of two has a bit too many; the shift that
removes it changes nothing else. -/
theorem settled {r : ℕ} {e : ℤ} (hpos : 0 < r) (hle : r ≤ 2 ^ 53) (he : -1074 ≤ e)
    (hfull : 2 ^ 52 ≤ r ∨ e = -1074) :
    ∃ x e', UnpackedFloat.shiftToTargetExponent Format.binary64 r e .exact = (x, e') ∧
      Canonical x.mantissa e' ∧ size x.mantissa e' = size r e := by
  rw [shiftToTargetExponent_eq]
  by_cases htop : r = 2 ^ 53
  · have hshift : (exponentOf r e - e).toNat = 1 := by
      rw [exponentOf, htop, Nat.log2_two_pow]
      omega
    have hmantissa := (shifted_repeat r 1).mantissa
    rw [htop] at hmantissa
    rw [hshift, htop]
    refine ⟨_, _, rfl, ?_, ?_⟩
    · rw [hmantissa]
      exact ⟨by decide, by decide, by omega, .inl (by decide)⟩
    · rw [hmantissa, size, size, show (e + (1 : ℕ) + 1074).toNat = (e + 1074).toNat + 1 by omega]
      ring
  · have hlog : r.log2 ≤ 52 := Nat.lt_succ_iff.mp ((Nat.log2_lt hpos.ne').mpr (by omega))
    have hshift : (exponentOf r e - e).toNat = 0 := by
      rw [exponentOf]
      omega
    rw [hshift]
    exact ⟨_, _, rfl, ⟨hpos, by show r < _; omega, by omega, hfull.imp_right (by omega)⟩,
      congrArg (size r) (Int.add_zero e)⟩

/-- The unpacked numbers of one sign that are in canonical form, with their units. -/
inductive Sized (s : Sign) : ℕ → UnpackedFloat → Prop
  /-- Zero. -/
  | zero : Sized s 0 (.zero s)
  /-- Any other number. -/
  | finite {m : ℕ} {e : ℤ} {hpos : 0 < m} (h : Canonical m e) :
    Sized s (size m e) (.finite s m e hpos)

/-- The shifted mantissa has no more bits than there is room for, and not too few. -/
theorem shifted_bounds {m n : ℕ} {e : ℤ} (he : e ≤ exponentOf m e)
    (hn : n = (exponentOf m e - e).toNat) :
    m / 2 ^ n < 2 ^ 53 ∧ (2 ^ 52 ≤ m / 2 ^ n ∨ exponentOf m e = -1074) := by
  have hlog := Nat.lt_log2_self (n := m)
  rw [exponentOf] at he hn ⊢
  rcases Nat.eq_zero_or_pos m with rfl | hm
  · -- The logarithm of zero is zero, so the exponent can only be the least.
    rw [Nat.zero_div, Nat.log2_zero]
    rw [Nat.log2_zero] at he
    exact ⟨by decide, .inr (by omega)⟩
  have hlog' := Nat.log2_self_le hm.ne'
  refine ⟨?_, ?_⟩
  · refine Nat.div_lt_of_lt_mul (hlog.trans_le ?_)
    rw [← Nat.pow_add]
    exact Nat.pow_le_pow_right Nat.two_pos (by omega)
  · by_cases hleast : max ((m.log2 : ℤ) + e - 52) (-1074) = -1074
    · exact .inr hleast
    · refine .inl ((Nat.le_div_iff_mul_le (Nat.two_pow_pos n)).mpr ?_)
      rw [← Nat.pow_add]
      exact (Nat.pow_le_pow_right Nat.two_pos (by omega)).trans hlog'

/-- What the last step of rounding gives. -/
theorem sized_settled (s : Sign) {r : ℕ} {e : ℤ} (hle : r ≤ 2 ^ 53) (he : -1074 ≤ e)
    (hfull : 2 ^ 52 ≤ r ∨ e = -1074) :
    Sized s (size r e)
      (let p := UnpackedFloat.shiftToTargetExponent Format.binary64 r e .exact
      if h : p.1.mantissa = 0 then .zero s
      else .finite s p.1.mantissa p.2 (Nat.pos_of_ne_zero h)) := by
  dsimp only
  rcases Nat.eq_zero_or_pos r with rfl | hpos
  · rw [shiftToTargetExponent_eq, dif_pos ((shifted_repeat 0 _).mantissa.trans (Nat.zero_div _)),
      size, Nat.zero_mul]
    exact .zero
  · obtain ⟨x, e', hx, hcanonical, hsize⟩ := settled hpos hle he hfull
    rw [hx, ← hsize, dif_neg hcanonical.pos.ne']
    exact .finite hcanonical

/-- **Rounding gives a number in canonical form**, a nearest multiple of its least bit. -/
theorem roundWithAccuracy_sized (s : Sign) {m : ℕ} {e : ℤ} (he : e ≤ exponentOf m e) :
    ∃ r, IsNearest (2 ^ (exponentOf m e - e).toNat) m (r * 2 ^ (exponentOf m e - e).toNat : ℕ) ∧
      Sized s (size r (exponentOf m e))
        (UnpackedFloat.roundWithAccuracy Format.binary64 s m e .exact) := by
  have hshifted := shifted_repeat m (exponentOf m e - e).toNat
  obtain ⟨hlt, hfull⟩ := shifted_bounds he rfl
  obtain ⟨hlow, hhigh⟩ := hshifted.roundedMantissa_mem
  refine ⟨_, hshifted.isNearest, ?_⟩
  have hexponent : e + (exponentOf m e - e).toNat = exponentOf m e := by omega
  rw [UnpackedFloat.roundWithAccuracy, shiftToTargetExponent_eq, hexponent]
  exact sized_settled s (by omega) (le_max_right _ _) (hfull.imp_left fun h => by omega)

/-! ### Rounding to units -/

/-- The least bit of a double with as many units as a number. -/
def ulp (x : ℤ) : ℕ := 2 ^ (x.natAbs.log2 - 52)

theorem log2_mul_two_pow {m : ℕ} (hm : 0 < m) (k : ℕ) : (m * 2 ^ k).log2 = m.log2 + k := by
  induction k with
  | zero => rw [Nat.pow_zero, Nat.mul_one, Nat.add_zero]
  | succ k ih =>
    rw [Nat.pow_succ', Nat.mul_left_comm, Nat.log2_two_mul (by positivity), ih, Nat.add_assoc]

theorem log2_size {m : ℕ} (hm : 0 < m) (e : ℤ) :
    (size m e).log2 = m.log2 + (e + 1074).toNat :=
  log2_mul_two_pow hm _

theorem two_pow_exponentOf {m : ℕ} {e : ℤ} (hm : 0 < m) (he : -1074 ≤ e) :
    2 ^ (exponentOf m e + 1074).toNat = ulp (size m e) := by
  rw [ulp, Int.natAbs_natCast, log2_size hm, exponentOf]
  congr 1
  omega

/-- The units after rounding are the nearest number of least bits. -/
theorem roundWithAccuracy_isNearest (s : Sign) {m : ℕ} {e : ℤ} (hm : 0 < m) (hlow : -1074 ≤ e)
    (he : e ≤ exponentOf m e) :
    ∃ n : ℕ, IsNearest (ulp (size m e)) (size m e) n ∧
      Sized s n (UnpackedFloat.roundWithAccuracy Format.binary64 s m e .exact) := by
  obtain ⟨r, hnear, hsized⟩ := roundWithAccuracy_sized s he
  refine ⟨_, ?_, hsized⟩
  have hscaled := hnear.mul (2 ^ (e + 1074).toNat)
  have hpow : 2 ^ (exponentOf m e - e).toNat * 2 ^ (e + 1074).toNat = ulp (size m e) := by
    rw [← two_pow_exponentOf hm hlow, ← Nat.pow_add]
    congr 1
    omega
  have hsize : r * 2 ^ (exponentOf m e - e).toNat * 2 ^ (e + 1074).toNat =
      size r (exponentOf m e) := by
    rw [Nat.mul_assoc, hpow, ← two_pow_exponentOf hm hlow, size]
  rw [hpow, ← Nat.cast_mul, ← Nat.cast_mul, hsize] at hscaled
  exact hscaled

/-- The same if the exponent may have to be lowered first. -/
theorem round_isNearest (s : Sign) {m : ℕ} {e : ℤ} (hm : 0 < m) (hlow : -1074 ≤ e) :
    ∃ n : ℕ, IsNearest (ulp (size m e)) (size m e) n ∧
      Sized s n (UnpackedFloat.round Format.binary64 s m e) := by
  have hpos : 0 < m * 2 ^ (e - exponentOf m e).toNat := by positivity
  have hleast : -1074 ≤ exponentOf m e := le_max_right _ _
  have hexponent : exponentOf (m * 2 ^ (e - exponentOf m e).toNat)
      (e - (e - exponentOf m e).toNat) = exponentOf m e := by
    rw [exponentOf, log2_mul_two_pow hm, exponentOf]
    omega
  have hsize : size (m * 2 ^ (e - exponentOf m e).toNat) (e - (e - exponentOf m e).toNat) =
      size m e := by
    rw [size, size, Nat.mul_assoc, ← Nat.pow_add]
    congr 2
    omega
  obtain ⟨n, hnear, hsized⟩ := roundWithAccuracy_isNearest s hpos
    (e := e - (e - exponentOf m e).toNat) (by omega) (by rw [hexponent]; omega)
  rw [hsize] at hnear
  refine ⟨n, hnear, ?_⟩
  rw [UnpackedFloat.round, targetExponent_eq, UnpackedFloat.decreaseExponent, Nat.shiftLeft_eq]
  exact hsized

/-! ### Packing -/

/-- A number as it is after it was stored as a double. -/
def stored (u : UnpackedFloat) : UnpackedFloat := (Float.Model.pack u).unpack

theorem unpackSign_packComponents {spec : Format} (s : Sign) (e : BitVec spec.exponentBits)
    (m : BitVec spec.mantissaBitsWithoutImplicit) :
    UnpackedFloat.unpackSign (UnpackedFloat.packComponents spec s e m) = s.toBitVec := by
  ext i hi
  obtain rfl : i = 0 := by omega
  delta UnpackedFloat.unpackSign
  simp [UnpackedFloat.packComponents, BitVec.getLsbD_append, BitVec.getLsbD_eq_getElem,
    BitVec.getElem_append]

/-- What is unpacked is what was packed. -/
theorem unpack_packComponents (s : Sign) (e : BitVec 11) (m : BitVec 52) :
    UnpackedFloat.unpack Format.binary64 (UnpackedFloat.packComponents Format.binary64 s e m) =
      if e = -1#11 then if m = 0#52 then .infinity s else .notANumber
      else if e = 0#11 then if h : m = 0#52 then .zero s
        else .finite s m.toNat (-1074) (toNat_pos h)
      else .finite s (1#1 ++ m).toNat (e.toNat - 1075) (implicit_pos m) := by
  have hsign : Sign.ofBitVec s.toBitVec = s := by cases s <;> rfl
  rw [unpack_eq, UnpackedFloat.unpackMantissa_packComponents,
    UnpackedFloat.unpackExponent_packComponents, unpackSign_packComponents, hsign]
  by_cases hmin : e = 0#11
  · subst hmin
    rfl
  · rw [if_neg hmin, if_neg hmin]

theorem stored_zero (s : Sign) : stored (.zero s) = .zero s :=
  unpack_packComponents s 0 0

theorem stored_infinity (s : Sign) : stored (.infinity s) = .infinity s :=
  unpack_packComponents s (-1#11) 0

theorem stored_notANumber : stored .notANumber = .notANumber :=
  unpack_packComponents .positive (-1#11) (1#52 <<< 51)

theorem pack_finite (s : Sign) {m : ℕ} (e : ℤ) (hpos : 0 < m) :
    UnpackedFloat.pack Format.binary64 (.finite s m e hpos) =
      if 2 ^ 11 ≤ (e + 1075).toNat + 1 then UnpackedFloat.packedInfinity Format.binary64 s
      else UnpackedFloat.packComponents Format.binary64 s
        (if m.log2 + 1 = 53 then BitVec.ofNat 11 (e + 1075).toNat else 0#11) (BitVec.ofNat 52 m) := by
  have hbias : e + 1075 = e + (1023 : ℕ) + (52 : ℕ) := by omega
  rw [hbias, apply_ite (UnpackedFloat.packComponents Format.binary64 s), ite_apply]
  rfl

/-- A number with an exponent beyond the greatest one becomes infinite. -/
theorem stored_of_lt (s : Sign) {m : ℕ} {e : ℤ} {hpos : 0 < m} (he : 971 < e) :
    stored (.finite s m e hpos) = .infinity s := by
  have hpack := pack_finite s e hpos
  rw [if_pos (by omega)] at hpack
  rw [← stored_infinity]
  exact congrArg (UnpackedFloat.unpack Format.binary64) hpack

theorem finite_congr (s : Sign) {m m' : ℕ} {e e' : ℤ} {hpos : 0 < m} {hpos' : 0 < m'}
    (hm : m = m') (he : e = e') :
    UnpackedFloat.finite s m e hpos = UnpackedFloat.finite s m' e' hpos' := by
  subst hm he
  rfl

/-- Any other number in canonical form is stored as it is. -/
theorem stored_of_le (s : Sign) {m : ℕ} {e : ℤ} {hpos : 0 < m} (h : Canonical m e) (he : e ≤ 971) :
    stored (.finite s m e hpos) = .finite s m e hpos := by
  have hlow := h.le_exponent
  have hlt := h.lt
  show UnpackedFloat.unpack Format.binary64 (UnpackedFloat.pack Format.binary64 _) = _
  rw [pack_finite, if_neg (by omega)]
  by_cases hfull : 2 ^ 52 ≤ m
  · have hlog : m.log2 = 52 := (Nat.log2_eq_iff hpos.ne').mpr ⟨hfull, hlt⟩
    have hexponent : (BitVec.ofNat 11 (e + 1075).toNat).toNat = (e + 1075).toNat := by
      rw [BitVec.toNat_ofNat, Nat.mod_eq_of_lt (by omega)]
    have hmantissa : (1#1 ++ BitVec.ofNat 52 m).toNat = m := by
      rw [implicit_toNat, BitVec.toNat_ofNat]
      omega
    have hones : BitVec.ofNat 11 (e + 1075).toNat ≠ -1#11 := by
      intro heq
      have hval := hexponent.symm.trans (congrArg BitVec.toNat heq)
      change _ = 2047 at hval
      omega
    have hzero : BitVec.ofNat 11 (e + 1075).toNat ≠ 0#11 := by
      intro heq
      have hval := hexponent.symm.trans (congrArg BitVec.toNat heq)
      change _ = 0 at hval
      omega
    rw [hlog, if_pos rfl, unpack_packComponents, if_neg hones, if_neg hzero]
    exact finite_congr s hmantissa (by omega)
  · have hleast : e = -1074 := h.full.resolve_left hfull
    have hlog : m.log2 < 52 := (Nat.log2_lt hpos.ne').mpr (not_le.mp hfull)
    have hmantissa : (BitVec.ofNat 52 m).toNat = m := by
      rw [BitVec.toNat_ofNat, Nat.mod_eq_of_lt (not_le.mp hfull)]
    have hzero : BitVec.ofNat 52 m ≠ 0#52 := by
      intro heq
      exact hpos.ne' (hmantissa.symm.trans (congrArg BitVec.toNat heq))
    rw [if_neg (show m.log2 + 1 ≠ 53 by omega), unpack_packComponents, if_neg (by decide),
      if_pos rfl, dif_neg hzero]
    exact finite_congr s hmantissa hleast.symm

/-- **Storing a number keeps its units**, up to those of the infinities. -/
theorem Sized.stored {s : Sign} {n : ℕ} {u : UnpackedFloat} (h : Sized s n u) :
    unitsOf (stored u) = s.apply (min n limit : ℕ) ∧ stored u ≠ .notANumber := by
  cases h with
  | zero =>
    rw [stored_zero, Nat.zero_min]
    exact ⟨by cases s <;> rfl, UnpackedFloat.noConfusion⟩
  | @finite m e hpos h =>
    by_cases he : e ≤ 971
    · rw [stored_of_le s h he, Nat.min_eq_left (h.size_lt_limit he).le]
      exact ⟨rfl, UnpackedFloat.noConfusion⟩
    · rw [stored_of_lt s (not_le.mp he), Nat.min_eq_right (h.limit_le_size (not_le.mp he))]
      exact ⟨rfl, UnpackedFloat.noConfusion⟩

/-! ### Rounded numbers -/

/-- The number is a nearest one among the multiples of the least bit, with the infinities in
place of those beyond the greatest double. -/
def Rounded (x y : ℤ) : Prop :=
  ∃ z, IsNearest (ulp x) x z ∧ y = max (-(limit : ℤ)) (min limit z)

/-- A number that a double can have as its units. -/
structure Representable (x : ℤ) : Prop where
  /-- It has 53 bits at most. -/
  dvd : (ulp x : ℤ) ∣ x
  /-- It is not beyond the infinities. -/
  abs_le_limit : |x| ≤ limit

theorem ulp_neg (x : ℤ) : ulp (-x) = ulp x := by
  rw [ulp, Int.natAbs_neg, ulp]

theorem Rounded.neg {x y : ℤ} (h : Rounded x y) : Rounded (-x) (-y) := by
  obtain ⟨z, hnear, rfl⟩ := h
  refine ⟨-z, ?_, ?_⟩
  · rw [ulp_neg]
    exact hnear.neg
  · omega

theorem Representable.neg {x : ℤ} (h : Representable x) : Representable (-x) :=
  ⟨by rw [ulp_neg]; exact h.dvd.neg_right, by rw [abs_neg]; exact h.abs_le_limit⟩

/-- Between a representable number and another one there is a multiple of the least bit. -/
theorem Representable.exists_multiple {x d : ℤ} (hd : Representable d) (hle : d ≤ x) :
    ∃ c, (ulp x : ℤ) ∣ c ∧ d ≤ c ∧ c ≤ x := by
  by_cases hlog : x.natAbs.log2 ≤ d.natAbs.log2 ∨ x.natAbs.log2 ≤ 52
  · -- The least bit of `x` is not above that of `d`.
    refine ⟨d, (Int.natCast_dvd_natCast.mpr (Nat.pow_dvd_pow 2 ?_)).trans hd.dvd, le_rfl, hle⟩
    omega
  · -- Otherwise the greatest bit of `x` is a multiple, and above `d`.
    obtain ⟨hlog, hwide⟩ := not_or.mp hlog
    have hdlt : d.natAbs < 2 ^ x.natAbs.log2 := by
      by_cases hzero : d.natAbs = 0
      · rw [hzero]
        exact Nat.two_pow_pos _
      · exact (Nat.log2_lt hzero).mp (not_le.mp hlog)
    have hx : 2 ^ x.natAbs.log2 ≤ x.natAbs := Nat.log2_self_le (by
      rintro hzero
      rw [hzero, Nat.log2_zero] at hwide
      omega)
    refine ⟨(2 ^ x.natAbs.log2 : ℕ), Int.natCast_dvd_natCast.mpr (Nat.pow_dvd_pow 2 ?_), ?_, ?_⟩
    · omega
    · omega
    · omega

/-- **Rounding does not pass a representable number** from above. -/
theorem Rounded.le {x y d : ℤ} (h : Rounded x y) (hd : Representable d) (hle : d ≤ x) : d ≤ y := by
  obtain ⟨z, hnear, rfl⟩ := h
  obtain ⟨c, hdvd, hdc, hcx⟩ := hd.exists_multiple hle
  have hcz := hnear.le_of_le hdvd hcx
  have hlimit := (abs_le.mp hd.abs_le_limit).2
  omega

/-- The same from below. -/
theorem Rounded.ge {x y d : ℤ} (h : Rounded x y) (hd : Representable d) (hle : x ≤ d) : y ≤ d :=
  neg_le_neg_iff.mp (h.neg.le hd.neg (neg_le_neg hle))

/-- A representable number is rounded to itself. -/
theorem Representable.rounded {x : ℤ} (h : Representable x) : Rounded x x := by
  refine ⟨x, ⟨h.dvd, by simp⟩, ?_⟩
  have habs := abs_le.mp h.abs_le_limit
  omega

theorem representable_zero : Representable 0 :=
  ⟨dvd_zero _, abs_zero.trans_le (Int.natCast_nonneg limit)⟩

theorem representable_natCast {n : ℕ} (hdvd : ulp n ∣ n) (hle : n ≤ limit) :
    Representable n :=
  ⟨Int.natCast_dvd_natCast.mpr hdvd, by rw [Nat.abs_cast]; exact Nat.cast_le.mpr hle⟩

theorem Canonical.ulp_dvd {m : ℕ} {e : ℤ} (h : Canonical m e) : ulp (size m e) ∣ size m e := by
  have hlog : m.log2 < 53 := (Nat.log2_lt h.pos.ne').mpr h.lt
  refine Nat.dvd_mul_left_of_dvd ?_ m
  rw [ulp, Int.natAbs_natCast, log2_size h.pos]
  exact Nat.pow_dvd_pow 2 (by omega)

theorem Representable.apply {n : ℕ} (h : Representable n) (s : Sign) :
    Representable (s.apply n) := by
  cases s with
  | negative => exact h.neg
  | positive => exact h

/-- The units of a double are representable. -/
theorem Held.representable {u : UnpackedFloat} (hu : Held u) : Representable (unitsOf u) := by
  cases hu with
  | notANumber => exact representable_zero
  | zero => exact representable_zero
  | infinity s =>
    have hcanonical : Canonical (2 ^ 52) 972 := ⟨by decide, by decide, by decide, .inl le_rfl⟩
    exact (representable_natCast hcanonical.ulp_dvd le_rfl).apply s
  | finite s h he => exact (representable_natCast h.ulp_dvd (h.size_lt_limit he).le).apply s

theorem Sized.rounded {x n : ℕ} {u : UnpackedFloat} (hnear : IsNearest (ulp x) x n)
    (h : Sized .positive n u) : Rounded x (unitsOf (Double.stored u)) := by
  refine ⟨n, hnear, h.stored.1.trans ?_⟩
  show ((min n limit : ℕ) : ℤ) = _
  omega

theorem Sized.rounded_neg {x n : ℕ} {u : UnpackedFloat} (hnear : IsNearest (ulp x) x n)
    (h : Sized .negative n u) : Rounded (-x) (unitsOf (Double.stored u)) := by
  refine ⟨-n, by rw [ulp_neg]; exact hnear.neg, h.stored.1.trans ?_⟩
  show -((min n limit : ℕ) : ℤ) = _
  omega

/-- **What is normalized and stored is rounded.** -/
theorem normalize_rounded {m e : ℤ} (he : -1074 ≤ e) (s : Sign) :
    Rounded (m * 2 ^ (e + 1074).toNat)
        (unitsOf (stored (UnpackedFloat.normalize Format.binary64 m e s))) ∧
      stored (UnpackedFloat.normalize Format.binary64 m e s) ≠ .notANumber := by
  have hcast (n : ℕ) : ((size n e : ℕ) : ℤ) = n * 2 ^ (e + 1074).toNat := by
    rw [size]
    push_cast
    rfl
  rcases lt_trichotomy m 0 with hm | rfl | hm
  · obtain ⟨n, hnear, hsized⟩ := round_isNearest .negative (m := (-m).toNat) (by omega) he
    have hsize : m * 2 ^ (e + 1074).toNat = -(size (-m).toNat e : ℤ) := by
      rw [hcast, Int.toNat_of_nonneg (by omega), neg_mul, neg_neg]
    rw [UnpackedFloat.normalize, compare_lt_iff_lt.mpr hm, hsize]
    exact ⟨hsized.rounded_neg hnear, hsized.stored.2⟩
  · rw [UnpackedFloat.normalize, compare_eq_iff_eq.mpr rfl, zero_mul]
    dsimp only
    rw [stored_zero]
    exact ⟨representable_zero.rounded, UnpackedFloat.noConfusion⟩
  · obtain ⟨n, hnear, hsized⟩ := round_isNearest .positive (m := m.toNat) (by omega) he
    have hsize : m * 2 ^ (e + 1074).toNat = (size m.toNat e : ℤ) := by
      rw [hcast, Int.toNat_of_nonneg (by omega)]
    rw [UnpackedFloat.normalize, compare_gt_iff_gt.mpr hm, hsize]
    exact ⟨hsized.rounded hnear, hsized.stored.2⟩

end Stepwise.Double
