import Mathlib.Algebra.Order.Ring.Int
import Mathlib.Data.Finite.Defs
import Mathlib.Data.Fintype.EquivFin
import Mathlib.Tactic.Linarith
import Mathlib.Tactic.NormNum
import Mathlib.Tactic.Ring
import Stepwise.Scalar

/-!
# Doubles as whole numbers

Every finite double is a whole multiple of the least positive one, `2⁻¹⁰⁷⁴`. So it is a whole
number of units (`Stepwise.Double.units`), and a statement about doubles becomes one about
whole numbers, without fractions and without exponents. The infinities get the number at which
rounding reaches them, `2²⁰⁹⁸`, with either sign, so that they stand at both ends of the others.

The comparisons of doubles are those of their units, except that an undefined double compares
with nothing (`Stepwise.Double.lt_iff`, `Stepwise.Double.le_iff`). Apart from the two zeros a
double is known by its units (`Stepwise.Double.eq_of_units_eq`).

All of it is read off the 64 bits: a sign bit, eleven bits of an exponent and 52 bits of a
mantissa (`Stepwise.Double.Reading`).
-/

namespace Stepwise.Double

open Float.Model (UnpackedFloat Format)
open Float.Model.UnpackedFloat (Sign)

/-! ### Reading the bits -/

/-- The sign that a bit stands for. -/
def signOf (b : ℕ) : Sign := if b = 0 then .positive else .negative

/-- What the bits of a number stand for. -/
inductive Reading (b : ℕ) : UnpackedFloat → Prop
  /-- The greatest exponent with an empty mantissa. -/
  | infinity {s : Sign} (hs : s = signOf (b / 2 ^ 63 % 2)) (he : b / 2 ^ 52 % 2 ^ 11 = 2047)
      (hm : b % 2 ^ 52 = 0) : Reading b (.infinity s)
  /-- The greatest exponent with another mantissa. -/
  | notANumber (he : b / 2 ^ 52 % 2 ^ 11 = 2047) (hm : b % 2 ^ 52 ≠ 0) : Reading b .notANumber
  /-- The least exponent with an empty mantissa. -/
  | zero {s : Sign} (hs : s = signOf (b / 2 ^ 63 % 2)) (he : b / 2 ^ 52 % 2 ^ 11 = 0)
      (hm : b % 2 ^ 52 = 0) : Reading b (.zero s)
  /-- The least exponent with another mantissa. -/
  | subnormal {s : Sign} {m : ℕ} {e : ℤ} {hpos : 0 < m} (hs : s = signOf (b / 2 ^ 63 % 2))
      (he : b / 2 ^ 52 % 2 ^ 11 = 0) (hm : m = b % 2 ^ 52) (hexponent : e = -1074) :
      Reading b (.finite s m e hpos)
  /-- An exponent in between; the mantissa then has one more bit, which is set. -/
  | normal {s : Sign} {m : ℕ} {e : ℤ} {hpos : 0 < m} (hs : s = signOf (b / 2 ^ 63 % 2))
      (he : 0 < b / 2 ^ 52 % 2 ^ 11) (hlt : b / 2 ^ 52 % 2 ^ 11 < 2047)
      (hm : m = 2 ^ 52 + b % 2 ^ 52) (hexponent : e = (b / 2 ^ 52 % 2 ^ 11 : ℕ) - 1075) :
      Reading b (.finite s m e hpos)

section Fields

variable (b : BitVec 64)

theorem mantissa_toNat :
    (@UnpackedFloat.unpackMantissa Format.binary64 b).toNat = b.toNat % 2 ^ 52 := by
  simp [UnpackedFloat.unpackMantissa]

theorem exponent_toNat :
    (@UnpackedFloat.unpackExponent Format.binary64 b).toNat =
      b.toNat / 2 ^ 52 % 2 ^ 11 := by
  simp [UnpackedFloat.unpackExponent, Nat.shiftRight_eq_div_pow]

theorem sign_toNat :
    (@UnpackedFloat.unpackSign Format.binary64 b).toNat = b.toNat / 2 ^ 63 % 2 := by
  show (BitVec.cast _ (BitVec.extractLsb 63 63 b)).toNat = _
  simp [Nat.shiftRight_eq_div_pow]

theorem ofBitVec_eq (b : BitVec 1) : Sign.ofBitVec b = signOf b.toNat := by
  simp [Sign.ofBitVec, signOf, ← BitVec.toNat_inj]

/-- The bit that a normal number has in front of its mantissa. -/
theorem implicit_toNat (m : BitVec 52) : (1#1 ++ m).toNat = 2 ^ 52 + m.toNat := by
  rw [BitVec.toNat_append, ← Nat.shiftLeft_add_eq_or_of_lt m.isLt]
  rfl

theorem implicit_pos (m : BitVec 52) : 0 < (1#1 ++ m).toNat := by
  rw [implicit_toNat]
  exact Nat.add_pos_left (Nat.two_pow_pos 52) _

/-- A mantissa with a bit set is not zero. -/
theorem toNat_pos {m : BitVec 52} (h : m ≠ 0#52) : 0 < m.toNat :=
  Nat.pos_of_ne_zero fun hzero => h (BitVec.eq_of_toNat_eq hzero)

end Fields

/-- What is unpacked, by cases on the exponent and the mantissa. -/
theorem unpack_eq (b : BitVec 64) : UnpackedFloat.unpack Format.binary64 b =
    if @UnpackedFloat.unpackExponent Format.binary64 b = -1#11 then
      if @UnpackedFloat.unpackMantissa Format.binary64 b = 0#52 then
        .infinity (Sign.ofBitVec (@UnpackedFloat.unpackSign Format.binary64 b))
      else .notANumber
    else if @UnpackedFloat.unpackExponent Format.binary64 b = 0#11 then
      if h : @UnpackedFloat.unpackMantissa Format.binary64 b = 0#52 then
        .zero (Sign.ofBitVec (@UnpackedFloat.unpackSign Format.binary64 b))
      else .finite (Sign.ofBitVec (@UnpackedFloat.unpackSign Format.binary64 b))
        (@UnpackedFloat.unpackMantissa Format.binary64 b).toNat
        ((@UnpackedFloat.unpackExponent Format.binary64 b).toNat - 1075 + 1) (toNat_pos h)
    else .finite (Sign.ofBitVec (@UnpackedFloat.unpackSign Format.binary64 b))
      (1#1 ++ @UnpackedFloat.unpackMantissa Format.binary64 b).toNat
      ((@UnpackedFloat.unpackExponent Format.binary64 b).toNat - 1075) (implicit_pos _) :=
  rfl

/-- **A double is what its bits stand for.** -/
theorem reading_unpack (v : Float.Model) : Reading v.toBits.toBitVec.toNat v.unpack := by
  have hm := mantissa_toNat v.toBits.toBitVec
  have he := exponent_toNat v.toBits.toBitVec
  have hs := sign_toNat v.toBits.toBitVec
  rw [show v.unpack = _ from unpack_eq v.toBits.toBitVec, ofBitVec_eq, hs]
  by_cases hmax : @UnpackedFloat.unpackExponent Format.binary64 v.toBits.toBitVec = -1#11
  · have hmax' := he.symm.trans (congrArg BitVec.toNat hmax)
    rw [if_pos hmax]
    by_cases hzero : @UnpackedFloat.unpackMantissa Format.binary64 v.toBits.toBitVec = 0#52
    · rw [if_pos hzero]
      exact .infinity rfl hmax' (hm.symm.trans (congrArg BitVec.toNat hzero))
    · rw [if_neg hzero]
      exact .notANumber hmax' fun h => hzero (BitVec.eq_of_toNat_eq (hm.trans h))
  · have hmax' : v.toBits.toBitVec.toNat / 2 ^ 52 % 2 ^ 11 ≠ 2047 :=
      fun h => hmax (BitVec.eq_of_toNat_eq (he.trans h))
    rw [if_neg hmax]
    by_cases hmin : @UnpackedFloat.unpackExponent Format.binary64 v.toBits.toBitVec = 0#11
    · have hmin' := he.symm.trans (congrArg BitVec.toNat hmin)
      rw [if_pos hmin]
      by_cases hzero : @UnpackedFloat.unpackMantissa Format.binary64 v.toBits.toBitVec = 0#52
      · rw [dif_pos hzero]
        exact .zero rfl hmin' (hm.symm.trans (congrArg BitVec.toNat hzero))
      · rw [dif_neg hzero]
        exact .subnormal rfl hmin' hm (by rw [hmin]; rfl)
    · have hmin' : v.toBits.toBitVec.toNat / 2 ^ 52 % 2 ^ 11 ≠ 0 :=
        fun h => hmin (BitVec.eq_of_toNat_eq (he.trans h))
      rw [if_neg hmin]
      exact .normal rfl (by omega) (by omega) (by rw [implicit_toNat, hm]) (by rw [he])

theorem signOf_injective {a b : ℕ} (ha : a < 2) (hb : b < 2) (h : signOf a = signOf b) : a = b := by
  unfold signOf at h
  split_ifs at h
  · omega
  · omega

/-- The bits of a number are known by what they stand for. -/
theorem Reading.injective {b b' : ℕ} {u : UnpackedFloat} (h : Reading b u) (h' : Reading b' u)
    (hb : b < 2 ^ 64) (hb' : b' < 2 ^ 64) (hu : u ≠ .notANumber) : b = b' := by
  have hfields {s : Sign} (hs : s = signOf (b / 2 ^ 63 % 2)) (hs' : s = signOf (b' / 2 ^ 63 % 2))
      (he : b / 2 ^ 52 % 2 ^ 11 = b' / 2 ^ 52 % 2 ^ 11) (hm : b % 2 ^ 52 = b' % 2 ^ 52) :
      b = b' := by
    have hbit := signOf_injective (by omega) (by omega) (hs.symm.trans hs')
    omega
  cases h with
  | infinity hs he hm =>
    cases h' with
    | infinity hs' he' hm' => exact hfields hs hs' (by omega) (by omega)
  | notANumber => exact absurd rfl hu
  | zero hs he hm =>
    cases h' with
    | zero hs' he' hm' => exact hfields hs hs' (by omega) (by omega)
  | subnormal hs he hm hexponent =>
    cases h' with
    | subnormal hs' he' hm' hexponent' => exact hfields hs hs' (by omega) (by omega)
    | normal hs' he' hlt' hm' hexponent' => omega
  | normal hs he hlt hm hexponent =>
    cases h' with
    | subnormal hs' he' hm' hexponent' => omega
    | normal hs' he' hlt' hm' hexponent' => exact hfields hs hs' (by omega) (by omega)

/-- **A double is known by what its bits stand for**; there is only one undefined double. -/
theorem unpack_injective {v w : Float.Model} (h : v.unpack = w.unpack) : v = w := by
  have hv := reading_unpack v
  have hw := reading_unpack w
  suffices hbits : v.toBits.toBitVec = w.toBits.toBitVec by
    cases v
    cases w
    exact (Float.Model.mk.injEq ..).mpr (UInt64.toBitVec_inj.mp hbits)
  by_cases hnan : v.unpack = .notANumber
  · have hpacked {u : Float.Model} (hu : u.unpack = .notANumber) :
        u.toBits.toBitVec = UnpackedFloat.packedNaN Format.binary64 := by
      have hreading := hu ▸ reading_unpack u
      cases hreading with
      | notANumber he hm =>
        refine u.valid.eq_packedNaN (BitVec.eq_of_toNat_eq ((exponent_toNat _).trans he)) ?_
        intro hzero
        exact hm ((mantissa_toNat _).symm.trans (congrArg BitVec.toNat hzero))
    rw [hpacked hnan, hpacked (h ▸ hnan)]
  · exact BitVec.eq_of_toNat_eq
      (hv.injective (h ▸ hw) (BitVec.isLt _) (BitVec.isLt _) hnan)

/-! ### Finite doubles -/

/-- Mantissa and exponent of a double that is neither zero nor infinite, when the exponent may
be as large as it likes: the mantissa has 53 bits, or fewer where the exponent is the least. -/
structure Canonical (m : ℕ) (e : ℤ) : Prop where
  /-- The double is not zero. -/
  pos : 0 < m
  /-- The mantissa has no more than 53 bits. -/
  lt : m < 2 ^ 53
  /-- The exponent is not below the least. -/
  le_exponent : -1074 ≤ e
  /-- The mantissa has all its bits unless the exponent is the least. -/
  full : 2 ^ 52 ≤ m ∨ e = -1074

/-- The units in a mantissa at an exponent. -/
def size (m : ℕ) (e : ℤ) : ℕ := m * 2 ^ (e + 1074).toNat

/-- The units at which rounding reaches infinity: those of the least number beyond the greatest
exponent. -/
def limit : ℕ := size (2 ^ 52) 972

theorem limit_pos : 0 < limit := Nat.mul_pos (Nat.two_pow_pos _) (Nat.two_pow_pos _)

namespace Canonical

variable {m m' : ℕ} {e e' : ℤ}

theorem size_pos (h : Canonical m e) : 0 < size m e :=
  Nat.mul_pos h.pos (Nat.two_pow_pos _)

/-- The size is below that of any greater exponent with all bits of the mantissa. -/
theorem size_lt (h : Canonical m e) {j : ℕ} (hj : (e + 1074).toNat < j) :
    size m e < 2 ^ 52 * 2 ^ j :=
  calc size m e < 2 ^ 53 * 2 ^ (e + 1074).toNat :=
        Nat.mul_lt_mul_of_pos_right h.lt (Nat.two_pow_pos _)
    _ = 2 ^ 52 * 2 ^ ((e + 1074).toNat + 1) := by ring
    _ ≤ 2 ^ 52 * 2 ^ j := Nat.mul_le_mul_left _ (Nat.pow_le_pow_right Nat.two_pos hj)

/-- Up to the greatest exponent there are fewer units than in the infinities. -/
theorem size_lt_limit (h : Canonical m e) (he : e ≤ 971) : size m e < limit :=
  h.size_lt (by omega)

/-- Beyond the greatest exponent there are no fewer units than in the infinities. -/
theorem limit_le_size (h : Canonical m e) (he : 971 < e) : limit ≤ size m e :=
  Nat.mul_le_mul (h.full.resolve_right (by omega))
    (Nat.pow_le_pow_right Nat.two_pos (by omega))

/-- **To compare sizes is to compare exponents, and then mantissas.** -/
theorem compare_size (h : Canonical m e) (h' : Canonical m' e') :
    compare (size m e) (size m' e') = (compare e e').then (compare m m') := by
  have hlow := h.le_exponent
  have hlow' := h'.le_exponent
  rcases lt_trichotomy e e' with he | rfl | he
  · have hfull : 2 ^ 52 ≤ m' := h'.full.resolve_right (by omega)
    have hlt : size m e < size m' e' :=
      (h.size_lt (by omega)).trans_le (Nat.mul_le_mul_right _ hfull)
    rw [compare_lt_iff_lt.mpr hlt, compare_lt_iff_lt.mpr he]
    rfl
  · have hmono : StrictMono fun m => size m e :=
      fun _ _ h => Nat.mul_lt_mul_of_pos_right h (Nat.two_pow_pos _)
    rw [compare_eq_iff_eq.mpr rfl, ← cmp_eq_compare (size m e), hmono.cmp_map_eq, cmp_eq_compare]
    rfl
  · have hfull : 2 ^ 52 ≤ m := h.full.resolve_right (by omega)
    have hlt : size m' e' < size m e :=
      (h'.size_lt (by omega)).trans_le (Nat.mul_le_mul_right _ hfull)
    rw [compare_gt_iff_gt.mpr hlt, compare_gt_iff_gt.mpr he]
    rfl

/-- Mantissa and exponent are known by the size. -/
theorem size_injective (h : Canonical m e) (h' : Canonical m' e') (hsize : size m e = size m' e') :
    m = m' ∧ e = e' := by
  have hcompare := h.compare_size h'
  rw [compare_eq_iff_eq.mpr hsize] at hcompare
  have hthen := Ordering.then_eq_eq.mp hcompare.symm
  exact ⟨compare_eq_iff_eq.mp hthen.2, compare_eq_iff_eq.mp hthen.1⟩

end Canonical

/-! ### Units -/

/-- The units in an unpacked number; none if it is undefined. -/
def unitsOf : UnpackedFloat → ℤ
  | .infinity s => s.apply limit
  | .notANumber => 0
  | .zero _ => 0
  | .finite s m e _ => s.apply (size m e)

/-- The units in a double; none if it is undefined. -/
def units (x : Float) : ℤ := unitsOf x.toModel.unpack

/-- An unpacked number that a double can hold. -/
inductive Held : UnpackedFloat → Prop
  /-- An infinity. -/
  | infinity (s : Sign) : Held (.infinity s)
  /-- The undefined number. -/
  | notANumber : Held .notANumber
  /-- A zero. -/
  | zero (s : Sign) : Held (.zero s)
  /-- Any other number. -/
  | finite (s : Sign) {m : ℕ} {e : ℤ} {hpos : 0 < m} (h : Canonical m e) (he : e ≤ 971) :
    Held (.finite s m e hpos)

theorem Reading.held {b : ℕ} {u : UnpackedFloat} (h : Reading b u) : Held u := by
  cases h with
  | infinity => exact .infinity _
  | notANumber => exact .notANumber
  | zero => exact .zero _
  | @subnormal s m e hpos hs he hm hexponent =>
    exact .finite s ⟨hpos, by omega, by omega, by omega⟩ (by omega)
  | @normal s m e hpos hs he hlt hm hexponent =>
    exact .finite s ⟨hpos, by omega, by omega, by omega⟩ (by omega)

theorem held_unpack (v : Float.Model) : Held v.unpack := (reading_unpack v).held

/-- An undefined number compares with nothing. -/
theorem compare_notANumber {u w : UnpackedFloat} (h : u = .notANumber ∨ w = .notANumber) :
    u.compare w = none := by
  rcases h with rfl | rfl
  · rfl
  · cases u <;> rfl

theorem compare_eq_lt {x y : ℤ} (h : x < y) : some Ordering.lt = some (compare x y) := by
  rw [compare_lt_iff_lt.mpr h]

theorem compare_eq_gt {x y : ℤ} (h : y < x) : some Ordering.gt = some (compare x y) := by
  rw [compare_gt_iff_gt.mpr h]

theorem compare_natCast (a b : ℕ) : compare (a : ℤ) b = compare a b := by
  rw [← cmp_eq_compare, ← cmp_eq_compare, Nat.strictMono_cast.cmp_map_eq]

theorem compare_neg (a b : ℤ) : compare (-a) (-b) = (compare a b).swap := by
  rw [← cmp_eq_compare, ← cmp_eq_compare, cmp_swap,
    StrictAnti.cmp_map_eq (f := Neg.neg) fun _ _ h => Int.neg_lt_neg h]

/-- Finite numbers compare as their units do. -/
theorem compare_finite {s s' : Sign} {m m' : ℕ} {e e' : ℤ} {hpos : 0 < m} {hpos' : 0 < m'}
    (h : Canonical m e) (h' : Canonical m' e') :
    UnpackedFloat.compare (.finite s m e hpos) (.finite s' m' e' hpos') =
      some (compare (s.apply (size m e)) (s'.apply (size m' e'))) := by
  have hsize := h.size_pos
  have hsize' := h'.size_pos
  have hcompare := h.compare_size h'
  cases s with
  | negative =>
    cases s' with
    | negative =>
      show some ((compare e e').then (compare m m')).swap =
        some (compare (-(size m e : ℤ)) (-(size m' e' : ℤ)))
      rw [compare_neg, compare_natCast, hcompare]
    | positive => exact compare_eq_lt (show -(size m e : ℤ) < size m' e' by omega)
  | positive =>
    cases s' with
    | negative => exact compare_eq_gt (show -(size m' e' : ℤ) < size m e by omega)
    | positive =>
      show some ((compare e e').then (compare m m')) = some (compare (size m e : ℤ) (size m' e' : ℤ))
      rw [compare_natCast, hcompare]

/-- A number of units that is below a bound keeps below it with either sign. -/
theorem apply_bounds (s : Sign) {n bound : ℕ} (h : n < bound) :
    -(bound : ℤ) < s.apply n ∧ s.apply n < bound := by
  cases s with
  | negative => exact ⟨show -(bound : ℤ) < -n by omega, show -(n : ℤ) < bound by omega⟩
  | positive => exact ⟨show -(bound : ℤ) < n by omega, show (n : ℤ) < bound by omega⟩

/-- An infinity compares as its units do. -/
theorem compare_infinity (s : Sign) {w : UnpackedFloat} (hw : Held w) (hw' : w ≠ .notANumber) :
    (UnpackedFloat.infinity s).compare w = some (compare (s.apply limit) (unitsOf w)) := by
  have hlimit := limit_pos
  cases hw with
  | notANumber => exact absurd rfl hw'
  | infinity s' =>
    cases s with
    | negative =>
      cases s' with
      | negative => exact (congrArg some (compare_eq_iff_eq.mpr rfl)).symm
      | positive => exact compare_eq_lt (show -(limit : ℤ) < limit by omega)
    | positive =>
      cases s' with
      | negative => exact compare_eq_gt (show -(limit : ℤ) < limit by omega)
      | positive => exact (congrArg some (compare_eq_iff_eq.mpr rfl)).symm
  | zero s' =>
    cases s with
    | negative => exact compare_eq_lt (show -(limit : ℤ) < 0 by omega)
    | positive => exact compare_eq_gt (show (0 : ℤ) < limit by omega)
  | finite s' h' he' =>
    have hbounds := apply_bounds s' (h'.size_lt_limit he')
    cases s with
    | negative => exact compare_eq_lt hbounds.1
    | positive => exact compare_eq_gt hbounds.2

/-- **Numbers compare as their units do.** -/
theorem Held.compare_eq {u w : UnpackedFloat} (hu : Held u) (hw : Held w) (hu' : u ≠ .notANumber)
    (hw' : w ≠ .notANumber) : u.compare w = some (compare (unitsOf u) (unitsOf w)) := by
  have hlimit := limit_pos
  -- Unless both are finite, their signs decide, or an infinity does.
  cases hu with
  | notANumber => exact absurd rfl hu'
  | infinity s => exact compare_infinity s hw hw'
  | zero s =>
    cases hw with
    | notANumber => exact absurd rfl hw'
    | infinity s' =>
      cases s' with
      | negative => exact compare_eq_gt (show -(limit : ℤ) < 0 by omega)
      | positive => exact compare_eq_lt (show (0 : ℤ) < limit by omega)
    | zero s' => exact (congrArg some (compare_eq_iff_eq.mpr rfl)).symm
    | @finite s' m' e' _ h' he' =>
      have hpos := h'.size_pos
      cases s' with
      | negative => exact compare_eq_gt (show -(size m' e' : ℤ) < 0 by omega)
      | positive => exact compare_eq_lt (show (0 : ℤ) < size m' e' by omega)
  | @finite s m e _ h he =>
    have hpos := h.size_pos
    have hbounds := apply_bounds s (h.size_lt_limit he)
    cases hw with
    | notANumber => exact absurd rfl hw'
    | infinity s' =>
      cases s' with
      | negative => exact compare_eq_gt hbounds.1
      | positive => exact compare_eq_lt hbounds.2
    | zero s' =>
      cases s with
      | negative => exact compare_eq_lt (show -(size m e : ℤ) < 0 by omega)
      | positive => exact compare_eq_gt (show (0 : ℤ) < size m e by omega)
    | finite s' h' he' => exact compare_finite h h'

/-! ### Doubles -/

theorem isNaN_iff {x : Float} : x.isNaN ↔ x.toModel.unpack = .notANumber := by
  show x.toModel.unpack.isNaN = true ↔ _
  cases x.toModel.unpack with
  | infinity s => exact iff_of_false Bool.false_ne_true UnpackedFloat.noConfusion
  | notANumber => exact iff_of_true rfl rfl
  | zero s => exact iff_of_false Bool.false_ne_true UnpackedFloat.noConfusion
  | finite s m e hpos => exact iff_of_false Bool.false_ne_true UnpackedFloat.noConfusion

theorem compare_units {x y : Float} (hx : ¬ x.isNaN) (hy : ¬ y.isNaN) :
    x.toModel.unpack.compare y.toModel.unpack = some (compare (units x) (units y)) :=
  (held_unpack _).compare_eq (held_unpack _) (mt isNaN_iff.mpr hx) (mt isNaN_iff.mpr hy)

theorem compare_of_isNaN {x y : Float} (h : x.isNaN ∨ y.isNaN) :
    x.toModel.unpack.compare y.toModel.unpack = none :=
  compare_notANumber (h.imp isNaN_iff.mp isNaN_iff.mp)

/-- **Doubles are in order when their units are**, unless one of them is undefined. -/
theorem lt_iff {x y : Float} : x < y ↔ ¬ x.isNaN ∧ ¬ y.isNaN ∧ units x < units y := by
  have hlt : x < y ↔ x.toModel.unpack.compare y.toModel.unpack = some .lt := by
    show (decide (UnpackedFloat.lt _ _ = true)) = true ↔ _
    rw [decide_eq_true_iff, UnpackedFloat.lt, beq_iff_eq]
  by_cases hnan : x.isNaN ∨ y.isNaN
  · rw [hlt, compare_of_isNaN hnan]
    exact ⟨fun h => absurd h (by simp), fun h => absurd hnan (not_or.mpr ⟨h.1, h.2.1⟩)⟩
  · obtain ⟨hx, hy⟩ := not_or.mp hnan
    rw [hlt, compare_units hx hy, Option.some_inj, compare_lt_iff_lt]
    exact ⟨fun h => ⟨hx, hy, h⟩, fun h => h.2.2⟩

/-- The same of the comparison that allows equality. -/
theorem le_iff {x y : Float} : x ≤ y ↔ ¬ x.isNaN ∧ ¬ y.isNaN ∧ units x ≤ units y := by
  have hle : x ≤ y ↔ (x.toModel.unpack.compare y.toModel.unpack).any (·.isLE) := by
    show (decide (UnpackedFloat.le _ _ = true)) = true ↔ _
    rw [decide_eq_true_iff, UnpackedFloat.le]
  by_cases hnan : x.isNaN ∨ y.isNaN
  · rw [hle, compare_of_isNaN hnan]
    exact ⟨fun h => absurd h (by simp), fun h => absurd hnan (not_or.mpr ⟨h.1, h.2.1⟩)⟩
  · obtain ⟨hx, hy⟩ := not_or.mp hnan
    rw [hle, compare_units hx hy, Option.any_some, Int.isLE_compare]
    exact ⟨fun h => ⟨hx, hy, h⟩, fun h => h.2.2⟩

/-- The same of the test for equality. -/
theorem beq_iff {x y : Float} : (x == y) = true ↔ ¬ x.isNaN ∧ ¬ y.isNaN ∧ units x = units y := by
  have hbeq : (x == y) = true ↔ x.toModel.unpack.compare y.toModel.unpack = some .eq := by
    show (UnpackedFloat.compare _ _ == some .eq) = true ↔ _
    rw [beq_iff_eq]
  by_cases hnan : x.isNaN ∨ y.isNaN
  · rw [hbeq, compare_of_isNaN hnan]
    exact ⟨fun h => absurd h (by simp), fun h => absurd hnan (not_or.mpr ⟨h.1, h.2.1⟩)⟩
  · obtain ⟨hx, hy⟩ := not_or.mp hnan
    rw [hbeq, compare_units hx hy, Option.some_inj, compare_eq_iff_eq]
    exact ⟨fun h => ⟨hx, hy, h⟩, fun h => h.2.2⟩

theorem lt_irrefl (x : Float) : ¬ x < x := fun h => (lt_iff.mp h).2.2.ne rfl

theorem le_refl {x : Float} (hx : ¬ x.isNaN) : x ≤ x := le_iff.mpr ⟨hx, hx, Int.le_refl _⟩

theorem le_of_lt {x y : Float} (h : x < y) : x ≤ y := by
  obtain ⟨hx, hy, hlt⟩ := lt_iff.mp h
  exact le_iff.mpr ⟨hx, hy, Int.le_of_lt hlt⟩

theorem le_trans {x y z : Float} (hxy : x ≤ y) (hyz : y ≤ z) : x ≤ z := by
  obtain ⟨hx, -, hxy⟩ := le_iff.mp hxy
  obtain ⟨-, hz, hyz⟩ := le_iff.mp hyz
  exact le_iff.mpr ⟨hx, hz, Int.le_trans hxy hyz⟩

/-- Of two doubles one is not above the other, unless one of them is undefined. -/
theorem le_of_not_lt {x y : Float} (hx : ¬ x.isNaN) (hy : ¬ y.isNaN) (h : ¬ x < y) : y ≤ x :=
  le_iff.mpr ⟨hy, hx, Int.not_lt.mp fun hlt => h (lt_iff.mpr ⟨hx, hy, hlt⟩)⟩

theorem apply_injective {s s' : Sign} {n n' : ℕ} (hn : 0 < n) (h : s.apply n = s'.apply n') :
    s = s' ∧ n = n' := by
  cases s <;> cases s' <;> simp only [Sign.apply] at h
  · exact ⟨rfl, by omega⟩
  · omega
  · omega
  · exact ⟨rfl, by omega⟩

/-- The units of a number tell what it is, except for the two zeros and the undefined number. -/
theorem Held.eq_of_unitsOf_eq {u w : UnpackedFloat} (hu : Held u) (hw : Held w)
    (hzero : unitsOf u ≠ 0) (h : unitsOf u = unitsOf w) : u = w := by
  cases hu with
  | notANumber => exact absurd rfl hzero
  | zero => exact absurd rfl hzero
  | infinity s =>
    cases hw with
    | notANumber => exact absurd h hzero
    | zero => exact absurd h hzero
    | infinity s' => exact congrArg _ (apply_injective limit_pos h).1
    | finite s' h' he' => exact absurd (apply_injective limit_pos h).2 (h'.size_lt_limit he').ne'
  | finite s hm he =>
    cases hw with
    | notANumber => exact absurd h hzero
    | zero => exact absurd h hzero
    | infinity s' => exact absurd (apply_injective hm.size_pos h).2 (hm.size_lt_limit he).ne
    | finite s' hm' he' =>
      obtain ⟨rfl, hsize⟩ := apply_injective hm.size_pos h
      obtain ⟨rfl, rfl⟩ := hm.size_injective hm' hsize
      rfl

theorem eq_of_unpack_eq {x y : Float} (h : x.toModel.unpack = y.toModel.unpack) : x = y := by
  cases x
  cases y
  exact congrArg Float.ofModel (unpack_injective h)

/-- **A double is known by its units**, unless it is a zero or undefined. -/
theorem eq_of_units_eq {x y : Float} (hzero : units x ≠ 0) (h : units x = units y) : x = y :=
  eq_of_unpack_eq ((held_unpack _).eq_of_unitsOf_eq (held_unpack _) hzero h)

/-- There is only one undefined double. -/
theorem eq_of_isNaN {x y : Float} (hx : x.isNaN) (hy : y.isNaN) : x = y :=
  eq_of_unpack_eq ((isNaN_iff.mp hx).trans (isNaN_iff.mp hy).symm)

/-- There are no more doubles than patterns of 64 bits. -/
instance instFiniteFloat : Finite Float :=
  Finite.of_injective (fun x : Float => x.toModel.toBits.toBitVec.toFin) fun _ _ h =>
    eq_of_unpack_eq (congrArg (UnpackedFloat.unpack Format.binary64) (BitVec.toFin_inj.mp h))

/-- **Doubles cannot increase forever.** -/
theorem exists_not_lt (x : ℕ → Float) : ∃ n, ¬ x n < x (n + 1) := by
  by_contra! hincrease
  have hmono : StrictMono (units ∘ x) :=
    strictMono_nat_of_lt_succ fun n => (lt_iff.mp (hincrease n)).2.2
  exact not_injective_infinite_finite x hmono.injective.of_comp

end Stepwise.Double
