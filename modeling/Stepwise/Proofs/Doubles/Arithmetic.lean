import Stepwise.Proofs.Doubles.Rounding

/-!
# Arithmetic on doubles

A sum of finite doubles is the rounded sum of their units, and a difference the rounded
difference (`Stepwise.Double.add_rounded`, `Stepwise.Double.sub_rounded`). An infinite summand
stays what it is, and an undefined one makes the result undefined.

Two consequences matter to a computation that adds the same double over and over. Adding a
positive double never goes back, so that it either goes ahead or does nothing
(`Stepwise.Double.lt_add_or_add_eq`). And it goes ahead from every number less than `2⁵³ - 1`
times the one that is added (`Stepwise.Double.lt_add`).

Of square roots no more is said than that they are not negative
(`Stepwise.Double.units_sqrt_nonneg`).
-/

namespace Stepwise.Double

open Float.Model (UnpackedFloat Format)
open Float.Model.UnpackedFloat (Sign)

/-! ### Results -/

/-- A number that a double can hold is stored as it is. -/
theorem Held.stored_eq {u : UnpackedFloat} (hu : Held u) : stored u = u := by
  cases hu with
  | infinity s => exact stored_infinity s
  | notANumber => exact stored_notANumber
  | zero s => exact stored_zero s
  | finite s h he => exact stored_of_le s h he

theorem unpack_add (x y : Float) : (x + y).toModel.unpack =
    stored (UnpackedFloat.add Format.binary64 x.toModel.unpack y.toModel.unpack) :=
  rfl

theorem unpack_sub (x y : Float) : (x - y).toModel.unpack =
    stored (UnpackedFloat.sub Format.binary64 x.toModel.unpack y.toModel.unpack) :=
  rfl

theorem unpack_mul (x y : Float) : (x * y).toModel.unpack =
    stored (UnpackedFloat.mul Format.binary64 x.toModel.unpack y.toModel.unpack) :=
  rfl

theorem Held.neg {u : UnpackedFloat} (hu : Held u) : Held u.neg := by
  cases hu with
  | infinity s => exact .infinity (-s)
  | notANumber => exact .notANumber
  | zero s => exact .zero (-s)
  | finite s h he => exact .finite (-s) h he

theorem Held.abs {u : UnpackedFloat} (hu : Held u) : Held u.abs := by
  cases hu with
  | infinity s => exact .infinity .positive
  | notANumber => exact .notANumber
  | zero s => exact .zero .positive
  | finite s h he => exact .finite .positive h he

theorem unpack_neg (x : Float) : (-x).toModel.unpack = x.toModel.unpack.neg :=
  (held_unpack _).neg.stored_eq

theorem unpack_abs (x : Float) : x.abs.toModel.unpack = x.toModel.unpack.abs :=
  (held_unpack _).abs.stored_eq

theorem apply_neg (s : Sign) (n : ℤ) : (-s).apply n = -s.apply n := by
  cases s with
  | negative => exact (neg_neg n).symm
  | positive => rfl

@[simp]
theorem units_neg (x : Float) : units (-x) = -units x := by
  rw [units, units, unpack_neg]
  cases x.toModel.unpack with
  | infinity s => exact apply_neg s _
  | notANumber => rfl
  | zero s => rfl
  | finite s m e hpos => exact apply_neg s _

theorem abs_apply (s : Sign) (n : ℕ) : |s.apply n| = n := by
  cases s with
  | negative => exact (abs_neg _).trans (Nat.abs_cast n)
  | positive => exact Nat.abs_cast n

@[simp]
theorem units_abs (x : Float) : units x.abs = |units x| := by
  rw [units, units, unpack_abs]
  cases x.toModel.unpack with
  | infinity s => exact (abs_apply s _).symm
  | notANumber => rfl
  | zero s => rfl
  | finite s m e hpos => exact (abs_apply s _).symm

theorem isFinite_neg (x : Float) : (-x).isFinite = x.isFinite := by
  show (-x).toModel.unpack.isFinite = x.toModel.unpack.isFinite
  rw [unpack_neg]
  cases x.toModel.unpack <;> rfl

theorem isNaN_neg (x : Float) : (-x).isNaN = x.isNaN := by
  show (-x).toModel.unpack.isNaN = x.toModel.unpack.isNaN
  rw [unpack_neg]
  cases x.toModel.unpack <;> rfl

theorem isNaN_abs (x : Float) : x.abs.isNaN = x.isNaN := by
  show x.abs.toModel.unpack.isNaN = x.toModel.unpack.isNaN
  rw [unpack_abs]
  cases x.toModel.unpack <;> rfl

/-- A difference is the sum with the opposite. -/
theorem sub_eq_add_neg (x y : Float) : x - y = x + -y := by
  refine eq_of_unpack_eq ?_
  rw [unpack_sub, unpack_add, unpack_neg]
  congr 1
  cases x.toModel.unpack with
  | notANumber => rfl
  | infinity s => cases y.toModel.unpack <;> rfl
  | zero s => cases y.toModel.unpack <;> rfl
  | finite s m e hpos =>
    cases y.toModel.unpack with
    | finite s' m' e' hpos' =>
      -- Both operations add mantissas at the smaller exponent.
      show UnpackedFloat.normalize _ (s.apply _ - s'.apply _) _ _ =
        UnpackedFloat.normalize _ (s.apply _ + (-s').apply _) _ _
      rw [apply_neg, Int.sub_eq_add_neg]
    | notANumber => rfl
    | infinity s' => rfl
    | zero s' => rfl

/-! ### Finite operands -/

/-- A finite number that a double can hold. -/
inductive HeldFinite : UnpackedFloat → Prop
  /-- A zero. -/
  | zero (s : Sign) : HeldFinite (.zero s)
  /-- Any other number. -/
  | finite (s : Sign) {m : ℕ} {e : ℤ} {hpos : 0 < m} (h : Canonical m e) (he : e ≤ 971) :
    HeldFinite (.finite s m e hpos)

theorem heldFinite_unpack {x : Float} (hx : x.isFinite) : HeldFinite x.toModel.unpack := by
  have hfinite : x.toModel.unpack.isFinite := hx
  have hheld := held_unpack x.toModel
  generalize x.toModel.unpack = u at hfinite hheld
  cases hheld with
  | infinity => exact absurd hfinite Bool.false_ne_true
  | notANumber => exact absurd hfinite Bool.false_ne_true
  | zero s => exact .zero s
  | finite s h he => exact .finite s h he

theorem HeldFinite.abs_unitsOf_lt {u : UnpackedFloat} (hu : HeldFinite u) :
    |unitsOf u| < limit := by
  cases hu with
  | zero s => exact Nat.cast_pos.mpr limit_pos
  | finite s h he => exact (abs_apply s _).trans_lt (Nat.cast_lt.mpr (h.size_lt_limit he))

/-- Every finite double has units between those of the infinities. -/
theorem abs_units_lt {x : Float} (hx : x.isFinite) : |units x| < limit :=
  (heldFinite_unpack hx).abs_unitsOf_lt

theorem not_isNaN_of_isFinite {x : Float} (h : x.isFinite) : ¬ x.isNaN := by
  intro hnan
  have hheld := heldFinite_unpack h
  rw [isNaN_iff.mp hnan] at hheld
  exact nomatch hheld

/-! ### Undefined and infinite operands -/

theorem unpack_eq_infinity {x : Float} (h : ¬ x.isFinite) (hnan : ¬ x.isNaN) :
    ∃ s, x.toModel.unpack = .infinity s := by
  have hfinite : ¬ x.toModel.unpack.isFinite := h
  have hundefined : ¬ x.toModel.unpack.isNaN := hnan
  revert hfinite hundefined
  cases x.toModel.unpack with
  | infinity s => exact fun _ _ => ⟨s, rfl⟩
  | notANumber => exact fun _ h => absurd rfl h
  | zero s => exact fun h _ => absurd rfl h
  | finite s m e hpos => exact fun h _ => absurd rfl h

/-- An undefined summand makes the sum undefined. -/
theorem isNaN_add {x y : Float} (h : x.isNaN ∨ y.isNaN) : (x + y).isNaN := by
  rw [isNaN_iff, unpack_add]
  rcases h with hx | hy
  · rw [isNaN_iff.mp hx]
    exact stored_notANumber
  · rw [isNaN_iff.mp hy]
    cases x.toModel.unpack <;> exact stored_notANumber

theorem HeldFinite.infinity_add {u : UnpackedFloat} (hu : HeldFinite u) (s : Sign) :
    UnpackedFloat.add Format.binary64 (.infinity s) u = .infinity s := by
  cases hu <;> rfl

theorem HeldFinite.add_infinity {u : UnpackedFloat} (hu : HeldFinite u) (s : Sign) :
    UnpackedFloat.add Format.binary64 u (.infinity s) = .infinity s := by
  cases hu <;> rfl

/-- An infinite number stays what it is when a finite one is added. -/
theorem add_eq_self {x y : Float} (hx : ¬ x.isFinite) (hnan : ¬ x.isNaN) (hy : y.isFinite) :
    x + y = x := by
  refine eq_of_unpack_eq ?_
  obtain ⟨s, hs⟩ := unpack_eq_infinity hx hnan
  rw [unpack_add, hs, (heldFinite_unpack hy).infinity_add, stored_infinity]

/-- The same when the infinite number is the second summand. -/
theorem add_eq_right {x y : Float} (hx : x.isFinite) (hy : ¬ y.isFinite) (hnan : ¬ y.isNaN) :
    x + y = y := by
  refine eq_of_unpack_eq ?_
  obtain ⟨s, hs⟩ := unpack_eq_infinity hy hnan
  rw [unpack_add, hs, (heldFinite_unpack hx).add_infinity, stored_infinity]

/-! ### Sums and differences -/

/-- What lowering the exponent of a mantissa keeps. -/
theorem decreaseExponent_size {m : ℕ} {e e' : ℤ} (hlow : -1074 ≤ e') (he : e' ≤ e) (s : Sign) :
    s.apply (UnpackedFloat.decreaseExponent m e e').1 * 2 ^ (e' + 1074).toNat =
      s.apply (size m e) := by
  have hsize : (UnpackedFloat.decreaseExponent m e e').1 * 2 ^ (e' + 1074).toNat = size m e := by
    rw [UnpackedFloat.decreaseExponent, Nat.shiftLeft_eq, size, Nat.mul_assoc, ← Nat.pow_add]
    congr 2
    omega
  rw [← hsize]
  cases s with
  | negative => simp [Sign.apply]
  | positive => simp [Sign.apply]

/-- A number that a double can hold is its own rounding. -/
theorem Held.rounded_self {u : UnpackedFloat} (hu : Held u) (hnan : u ≠ .notANumber) {x : ℤ}
    (hx : unitsOf u = x) : Rounded x (unitsOf (stored u)) ∧ stored u ≠ .notANumber := by
  rw [hu.stored_eq, ← hx]
  exact ⟨hu.representable.rounded, hnan⟩

/-- The sum of two finite numbers, stored, has the rounded sum of their units. -/
theorem HeldFinite.add_rounded {u w : UnpackedFloat} (hu : HeldFinite u) (hw : HeldFinite w) :
    Rounded (unitsOf u + unitsOf w) (unitsOf (stored (UnpackedFloat.add Format.binary64 u w))) ∧
      stored (UnpackedFloat.add Format.binary64 u w) ≠ .notANumber := by
  cases hu with
  | zero s =>
    cases hw with
    | zero s' =>
      obtain ⟨t, ht⟩ : ∃ t, UnpackedFloat.add Format.binary64 (.zero s) (.zero s') = .zero t := by
        cases s <;> cases s' <;> exact ⟨_, rfl⟩
      rw [ht]
      exact (Held.zero t).rounded_self UnpackedFloat.noConfusion rfl
    | finite s' h' he' =>
      exact (Held.finite s' h' he').rounded_self UnpackedFloat.noConfusion (zero_add _).symm
  | @finite s m e hpos h he =>
    cases hw with
    | zero s' =>
      exact (Held.finite s h he).rounded_self UnpackedFloat.noConfusion (add_zero _).symm
    | @finite s' m' e' hpos' h' he' =>
      have hleast : -1074 ≤ min e e' := le_min h.le_exponent h'.le_exponent
      have hsum := normalize_rounded (m :=
        s.apply (UnpackedFloat.decreaseExponent m e (min e e')).1 +
          s'.apply (UnpackedFloat.decreaseExponent m' e' (min e e')).1) hleast .positive
      rw [add_mul, decreaseExponent_size hleast (min_le_left e e'),
        decreaseExponent_size hleast (min_le_right e e')] at hsum
      exact hsum

theorem not_isNaN_iff {x : Float} : ¬ x.isNaN ↔ x.toModel.unpack ≠ .notANumber :=
  not_congr isNaN_iff

/-- **The sum of finite doubles is their rounded sum.** -/
theorem add_rounded {x y : Float} (hx : x.isFinite) (hy : y.isFinite) :
    Rounded (units x + units y) (units (x + y)) ∧ ¬ (x + y).isNaN := by
  rw [not_isNaN_iff, units, unpack_add]
  exact (heldFinite_unpack hx).add_rounded (heldFinite_unpack hy)

/-- **The difference of finite doubles is their rounded difference.** -/
theorem sub_rounded {x y : Float} (hx : x.isFinite) (hy : y.isFinite) :
    Rounded (units x - units y) (units (x - y)) ∧ ¬ (x - y).isNaN := by
  rw [sub_eq_add_neg, Int.sub_eq_add_neg, ← units_neg]
  exact add_rounded hx (by rwa [isFinite_neg])

/-- A finite number that is taken away makes no difference undefined. -/
theorem isNaN_sub_iff {x y : Float} (hy : y.isFinite) : (x - y).isNaN ↔ x.isNaN := by
  constructor
  · intro h
    by_contra hx
    by_cases hfinite : x.isFinite
    · exact (sub_rounded hfinite hy).2 h
    · rw [sub_eq_add_neg, add_eq_self hfinite hx (by rwa [isFinite_neg])] at h
      exact hx h
  · intro h
    rw [sub_eq_add_neg]
    exact isNaN_add (.inl h)

theorem representable_units (x : Float) : Representable (units x) := (held_unpack _).representable

/-! ### Products -/

theorem HeldFinite.of_unitsOf_pos {u : UnpackedFloat} (hu : HeldFinite u) (hpos : 0 < unitsOf u) :
    ∃ m e, ∃ h : 0 < m, Canonical m e ∧ u = .finite .positive m e h := by
  cases hu with
  | zero s => exact absurd hpos (Int.lt_irrefl 0)
  | @finite s m e hm h he =>
    cases s with
    | negative => exact absurd hpos (not_lt.mpr (neg_nonpos.mpr (Int.natCast_nonneg _)))
    | positive => exact ⟨m, e, hm, h, rfl⟩

/-- Of a product of mantissas only bits at the end can be too many. -/
theorem Canonical.le_exponentOf {m m' : ℕ} {e e' : ℤ} (h : Canonical m e) (h' : Canonical m' e') :
    e + e' ≤ exponentOf (m * m') (e + e') := by
  have hm := h.pos
  have hm' := h'.pos
  rw [exponentOf]
  by_cases hleast : e = -1074 ∧ e' = -1074
  · omega
  · have hwide : 2 ^ 52 ≤ m * m' := by
      rcases h.full with hfull | he
      · exact hfull.trans (Nat.le_mul_of_pos_right m hm')
      · exact (h'.full.resolve_right fun he' => hleast ⟨he, he'⟩).trans
          (Nat.le_mul_of_pos_left m' hm)
    have hlog := (Nat.le_log2 (by positivity)).mpr hwide
    omega

/-- The product of positive doubles is not negative; it may be zero, or infinite. -/
theorem units_mul_nonneg {x y : Float} (hx : x.isFinite) (hy : y.isFinite) (hx' : 0 < units x)
    (hy' : 0 < units y) : 0 ≤ units (x * y) ∧ ¬ (x * y).isNaN := by
  obtain ⟨m, e, hm, h, hux⟩ := (heldFinite_unpack hx).of_unitsOf_pos hx'
  obtain ⟨m', e', hm', h', huy⟩ := (heldFinite_unpack hy).of_unitsOf_pos hy'
  obtain ⟨r, -, hsized⟩ :=
    roundWithAccuracy_sized .positive (h.le_exponentOf h')
  have hstored : (x * y).toModel.unpack =
      stored (UnpackedFloat.roundWithAccuracy Format.binary64 .positive (m * m') (e + e') .exact) := by
    rw [unpack_mul, hux, huy]
    rfl
  rw [not_isNaN_iff, units, hstored, hsized.stored.1]
  exact ⟨Int.natCast_nonneg _, hsized.stored.2⟩

/-! ### Going ahead -/

variable {x y z : Float}

/-- Adding a positive double does not go back, and reaches that double if nothing was below
zero. -/
theorem le_units_add (hx : x.isFinite) (hy : y.isFinite) (hpos : 0 < units y) :
    units x ≤ units (x + y) ∧ (0 ≤ units x → units y ≤ units (x + y)) := by
  have hsum := (add_rounded hx hy).1
  exact ⟨hsum.le (representable_units x) (by omega),
    fun hnonneg => hsum.le (representable_units y) (by omega)⟩

/-- **Adding a positive double goes ahead or does nothing.** -/
theorem lt_add_or_add_eq (x : Float) (hy : y.isFinite) (hpos : 0 < units y) :
    x < x + y ∨ x + y = x := by
  by_cases hnan : x.isNaN
  · exact .inr (eq_of_isNaN (isNaN_add (.inl hnan)) hnan)
  by_cases hx : x.isFinite
  · obtain ⟨hle, hge⟩ := le_units_add hx hy hpos
    rcases hle.lt_or_eq with hlt | heq
    · exact .inl (lt_iff.mpr ⟨hnan, (add_rounded hx hy).2, hlt⟩)
    · have hzero : units x ≠ 0 := by
        intro hzero
        have := hge hzero.ge
        omega
      exact .inr (eq_of_units_eq hzero heq).symm
  · exact .inr (add_eq_self hx hnan hy)

/-- A rounded sum that is where it started adds at most half of a least bit. -/
theorem Rounded.two_mul_le {a b : ℤ} (h : Rounded (a + b) a) (hb : 0 ≤ b) (ha : |a| < limit) :
    2 * b ≤ ulp (a + b) := by
  obtain ⟨z, hnear, heq⟩ := h
  have hinside := abs_lt.mp ha
  obtain rfl : a = z := by omega
  have habs : |a - (a + b)| = b := by
    rw [show a - (a + b) = -b by ring, abs_neg, abs_of_nonneg hb]
  have hclose := hnear.near
  rwa [habs] at hclose

/-- A number with a least bit above one unit is `2⁵²` times as large. -/
theorem ulp_le (a : ℤ) : ulp a = 1 ∨ 2 ^ 52 * ulp a ≤ a.natAbs := by
  by_cases hlog : a.natAbs.log2 ≤ 52
  · left
    rw [ulp, Nat.sub_eq_zero_of_le hlog, Nat.pow_zero]
  · right
    have hzero : a.natAbs ≠ 0 := by
      intro hzero
      rw [hzero, Nat.log2_zero] at hlog
      omega
    rw [ulp, ← Nat.pow_add, Nat.add_sub_cancel' (by omega)]
    exact Nat.log2_self_le hzero

theorem le_of_abs_le (h : x.abs ≤ y) : x ≤ y := by
  rw [le_iff, isNaN_abs, units_abs] at h
  exact le_iff.mpr ⟨h.1, h.2.1, (le_abs_self _).trans h.2.2⟩

/-- An infinite number is above all finite ones or below them. -/
theorem units_infinite (hx : ¬ x.isFinite) (hnan : ¬ x.isNaN) :
    units x = limit ∨ units x = -limit := by
  obtain ⟨s, hs⟩ := unpack_eq_infinity hx hnan
  rw [units, hs]
  cases s with
  | negative => exact .inr rfl
  | positive => exact .inl rfl

/-- A number is below another one if the difference is not small. -/
theorem lt_of_not_sub_le (hx : ¬ x.isNaN) (hy : ¬ y.isNaN) (hfinite : x.isFinite ∨ y.isFinite)
    (hz : ¬ z.isNaN) (hz' : 0 ≤ units z) (h : ¬ y - x ≤ z) : x < y := by
  refine lt_iff.mpr ⟨hx, hy, ?_⟩
  by_contra! hle
  refine h (le_iff.mpr ?_)
  by_cases hx' : x.isFinite
  · by_cases hy' : y.isFinite
    · obtain ⟨hsub, hnan⟩ := sub_rounded hy' hx'
      have hneg := hsub.ge representable_zero (by omega)
      exact ⟨hnan, hz, by omega⟩
    · rw [sub_eq_add_neg, add_eq_self hy' hy (by rwa [isFinite_neg])]
      have hbelow := abs_lt.mp (abs_units_lt hx')
      have hsign := units_infinite hy' hy
      exact ⟨hy, hz, by omega⟩
  · have hy' : y.isFinite := hfinite.resolve_left hx'
    have hneg : ¬ (-x).isNaN := by rwa [isNaN_neg]
    rw [sub_eq_add_neg, add_eq_right hy' (by rwa [isFinite_neg]) hneg]
    have hbelow := abs_lt.mp (abs_units_lt hy')
    have hsign := units_infinite hx' hx
    refine ⟨hneg, hz, ?_⟩
    rw [units_neg]
    omega

/-- **Adding a positive double goes ahead from every number less than `2⁵³ - 1` times as
large.** -/
theorem lt_add (hx : x.isFinite) (hy : y.isFinite) (hpos : 0 < units y)
    (hsmall : |units x| < (2 ^ 53 - 1) * units y) : x < x + y := by
  obtain ⟨hsum, hnan⟩ := add_rounded hx hy
  refine lt_iff.mpr ⟨not_isNaN_of_isFinite hx, hnan, ?_⟩
  refine (le_units_add hx hy hpos).1.lt_of_ne fun heq => ?_
  rw [← heq] at hsum
  have hhalf := hsum.two_mul_le hpos.le (abs_units_lt hx)
  have hsize := abs_lt.mp hsmall
  rcases ulp_le (units x + units y) with hone | hwide
  · omega
  · omega

/-! ### Square roots -/

/-- Whatever is packed with a positive sign has no negative units. -/
theorem unitsOf_packComponents_nonneg (e : BitVec 11) (m : BitVec 52) :
    0 ≤ unitsOf (UnpackedFloat.unpack Format.binary64
      (UnpackedFloat.packComponents Format.binary64 .positive e m)) := by
  rw [unpack_packComponents]
  by_cases hmax : e = -1#11
  · rw [if_pos hmax]
    split_ifs
    · exact Int.natCast_nonneg _
    · exact le_rfl
  rw [if_neg hmax]
  by_cases hmin : e = 0#11
  · rw [if_pos hmin]
    by_cases hzero : m = 0#52
    · rw [dif_pos hzero]
      exact le_rfl
    · rw [dif_neg hzero]
      exact Int.natCast_nonneg _
  · rw [if_neg hmin]
    exact Int.natCast_nonneg _

/-- So has a positive number that is stored, in canonical form or not. -/
theorem unitsOf_stored_nonneg {m : ℕ} (e : ℤ) (hpos : 0 < m) :
    0 ≤ unitsOf (stored (.finite .positive m e hpos)) := by
  show 0 ≤ unitsOf (UnpackedFloat.unpack Format.binary64 (UnpackedFloat.pack Format.binary64 _))
  rw [pack_finite]
  split_ifs
  · exact unitsOf_packComponents_nonneg (-1#11) 0
  · exact unitsOf_packComponents_nonneg _ _
  · exact unitsOf_packComponents_nonneg _ _

/-- Rounding keeps a number positive unless nothing of it is left. -/
theorem roundWithAccuracy_cases (m : ℕ) (e : ℤ) (accuracy : UnpackedFloat.Accuracy) :
    UnpackedFloat.roundWithAccuracy Format.binary64 .positive m e accuracy = .zero .positive ∨
      ∃ m' e', ∃ hpos : 0 < m', UnpackedFloat.roundWithAccuracy Format.binary64 .positive m e
        accuracy = .finite .positive m' e' hpos := by
  by_cases hzero : (UnpackedFloat.shiftToTargetExponent Format.binary64
      (UnpackedFloat.shiftToTargetExponent Format.binary64 m e accuracy).1.roundedMantissa
      (UnpackedFloat.shiftToTargetExponent Format.binary64 m e accuracy).2 .exact).1.mantissa = 0
  · exact .inl (dif_pos hzero)
  · exact .inr ⟨_, _, Nat.pos_of_ne_zero hzero, dif_neg hzero⟩

/-- A square root is undefined, infinite, zero or positive. -/
theorem sqrt_cases (u : UnpackedFloat) :
    UnpackedFloat.sqrt Format.binary64 u = .notANumber ∨
      UnpackedFloat.sqrt Format.binary64 u = .infinity .positive ∨
      (∃ s, UnpackedFloat.sqrt Format.binary64 u = .zero s) ∨
      ∃ m e, ∃ hpos : 0 < m, UnpackedFloat.sqrt Format.binary64 u = .finite .positive m e hpos := by
  cases u with
  | notANumber => exact .inl rfl
  | infinity s =>
    cases s with
    | positive => exact .inr (.inl rfl)
    | negative => exact .inl rfl
  | zero s => exact .inr (.inr (.inl ⟨s, rfl⟩))
  | finite s m e hpos =>
    cases s with
    | negative => exact .inl rfl
    | positive =>
      rcases roundWithAccuracy_cases (UnpackedFloat.sqrtCore Format.binary64 m e).1
        (UnpackedFloat.sqrtCore Format.binary64 m e).2.1
        (UnpackedFloat.sqrtCore Format.binary64 m e).2.2 with hzero | hpositive
      · exact .inr (.inr (.inl ⟨_, hzero⟩))
      · exact .inr (.inr (.inr hpositive))

/-- **A square root has no negative units.** -/
theorem units_sqrt_nonneg (x : Float) : 0 ≤ units x.sqrt := by
  show 0 ≤ unitsOf (stored (UnpackedFloat.sqrt Format.binary64 x.toModel.unpack))
  rcases sqrt_cases x.toModel.unpack with h | h | ⟨s, h⟩ | ⟨m, e, hpos, h⟩
  · rw [h, stored_notANumber]
    exact le_rfl
  · rw [h, stored_infinity]
    exact Int.natCast_nonneg _
  · rw [h, stored_zero]
    exact le_rfl
  · rw [h]
    exact unitsOf_stored_nonneg e hpos

end Stepwise.Double
