import Mathlib.Tactic.Linarith
import Stepwise.Proofs.Reals
import Stepwise.Proofs.Doubles.Arithmetic

/-!
# Rounding of real numbers to doubles

A product of two doubles is a whole number of bits, but a quotient or a square root need not be
one. It is computed as the mantissa below it, and a note on which half of the next bit the rest
is in (`Stepwise.Double.Approximates`). The note is two more bits of the mantissa, so rounding
goes on from there as if the rest were no more than those two bits: the bounds that decide the
rounding are none of the numbers in between.

In units the outcome is again one statement (`Stepwise.Double.Nearest`): a whole number of least
bits, no more than half of one away from the real number, with the infinities in place of the
numbers beyond the greatest double. Nothing that a double can have as its units is nearer
(`Stepwise.Double.Nearest.abs_sub_le`), and what is added or left out is in proportion to the
number, but for the least doubles (`Stepwise.Double.Nearest.error_le`).
-/

namespace Stepwise.Double

open Float.Model (UnpackedFloat Format)
open Float.Model.UnpackedFloat (Sign ExtendedMantissa Accuracy)

/-! ### What a mantissa leaves out -/

/-- A mantissa with a note on what it leaves out of a number. -/
inductive Approximates (x : ℝ) (m : ℕ) : Accuracy → Prop
  /-- Nothing. -/
  | exact (h : x = m) : Approximates x m .exact
  /-- Less than half a bit. -/
  | lt (h : m < x) (h' : 2 * x < 2 * m + 1) : Approximates x m (.inexact .lt)
  /-- Half a bit. -/
  | eq (h : 2 * x = 2 * m + 1) : Approximates x m (.inexact .eq)
  /-- More than half a bit. -/
  | gt (h : 2 * m + 1 < 2 * x) (h' : x < m + 1) : Approximates x m (.inexact .gt)

/-- The two bits that stand for what is left out. -/
def residue : Accuracy → ℕ
  | .exact => 0
  | .inexact .lt => 1
  | .inexact .eq => 2
  | .inexact .gt => 3

theorem residue_lt (accuracy : Accuracy) : residue accuracy < 4 := by
  rcases accuracy with _ | (_ | _ | _) <;> decide

theorem shifted_residue (m : ℕ) (accuracy : Accuracy) :
    Shifted (4 * m + residue accuracy) 2 (ExtendedMantissa.ofMantissaAndAccuracy m accuracy) := by
  have hrest : (4 * m + residue accuracy) % 2 ^ 2 = residue accuracy := by
    have := residue_lt accuracy
    omega
  have hmantissa : (4 * m + residue accuracy) / 2 ^ 2 = m := by
    have := residue_lt accuracy
    omega
  rcases accuracy with _ | (_ | _ | _) <;>
    exact ⟨hmantissa.symm, by rw [hrest]; rfl, by rw [hrest]; rfl⟩

variable {x : ℝ} {m : ℕ} {accuracy : Accuracy} {e : ℤ}

/-- The number and its mantissa with the two bits are in the same half of a bit. -/
theorem Approximates.bounds (h : Approximates x m accuracy) :
    ((2 * m + residue accuracy / 2 : ℕ) : ℝ) ≤ 2 * x ∧
      2 * x ≤ (2 * m + (residue accuracy + 1) / 2 : ℕ) := by
  cases h with
  | exact h => constructor <;> norm_num [residue, h]
  | lt h h' => constructor <;> norm_num [residue] <;> linarith
  | eq h => constructor <;> norm_num [residue, h]
  | gt h h' => constructor <;> norm_num [residue] <;> linarith

theorem Approximates.le (h : Approximates x m accuracy) : m ≤ x := by
  cases h with
  | exact h => exact h.ge
  | lt h h' => exact h.le
  | eq h => linarith
  | gt h h' => linarith

/-- **What is nearest to the mantissa with its two bits is nearest to the number.** -/
theorem Approximates.near (h : Approximates x m accuracy) {n : ℕ} {z : ℤ}
    (hz : IsNearest (2 ^ (n + 2)) (4 * m + residue accuracy : ℕ) (4 * z)) :
    2 * |(z : ℝ) - x| ≤ 2 ^ n := by
  obtain ⟨k, hk⟩ : ∃ k : ℕ, 2 ^ n = k := ⟨_, rfl⟩
  have hnear := hz.near
  rw [pow_add, hk, ← abs_two, ← abs_mul, abs_le] at hnear
  obtain ⟨hlow, hhigh⟩ := h.bounds
  generalize hl : 2 * m + residue accuracy / 2 = l at hlow
  generalize hu : 2 * m + (residue accuracy + 1) / 2 = u at hhigh
  -- The ends of the interval around the multiple are whole numbers of half bits.
  have hlow' : 2 * z - k ≤ l := by omega
  have hhigh' : u ≤ 2 * z + k := by omega
  rw [← Int.cast_le (R := ℝ)] at hlow' hhigh'
  push_cast at hlow' hhigh'
  have hcast : (2 : ℝ) ^ n = k := by exact_mod_cast hk
  rw [hcast, ← abs_two, ← abs_mul, abs_le]
  constructor <;> linarith

/-- **Rounding gives a number in canonical form**, a multiple of its least bit nearest to what the
mantissa approximates. -/
theorem Approximates.sized (h : Approximates x m accuracy) (s : Sign) (he : e ≤ exponentOf m e) :
    ∃ r : ℕ, 2 * |(r * 2 ^ (exponentOf m e - e).toNat : ℝ) - x| ≤
        2 ^ (exponentOf m e - e).toNat ∧
      (2 ^ 52 * 2 ^ (exponentOf m e - e).toNat ≤ x ∨ exponentOf m e = -1074) ∧
      Sized s (size r (exponentOf m e))
        (UnpackedFloat.roundWithAccuracy Format.binary64 s m e accuracy) := by
  obtain ⟨n, hn⟩ : ∃ n, (exponentOf m e - e).toNat = n := ⟨_, rfl⟩
  have hshifted := (shifted_residue m accuracy).shift n
  rw [Nat.add_comm 2 n] at hshifted
  obtain ⟨hlt, hfull⟩ := shifted_bounds he hn.symm
  obtain ⟨hlow, hhigh⟩ := hshifted.roundedMantissa_mem
  have hquotient : (4 * m + residue accuracy) / 2 ^ (n + 2) = m / 2 ^ n := by
    have hmantissa : (4 * m + residue accuracy) / 2 ^ 2 = m := by
      have := residue_lt accuracy
      omega
    rw [Nat.pow_add, Nat.mul_comm (2 ^ n), ← Nat.div_div_eq_div_mul, hmantissa]
  rw [hquotient] at hlow hhigh
  rw [hn]
  refine ⟨(ExtendedMantissa.ofMantissaAndAccuracy m accuracy >>> n).roundedMantissa, ?_, ?_, ?_⟩
  · have hnear := hshifted.isNearest
    have hmultiple (r : ℕ) : ((r * 2 ^ (n + 2) : ℕ) : ℤ) = 4 * (r * 2 ^ n : ℕ) := by
      push_cast
      ring
    rw [hmultiple] at hnear
    exact_mod_cast h.near hnear
  · refine hfull.imp_left fun hfull => ?_
    have hwide := (Nat.le_div_iff_mul_le (Nat.two_pow_pos n)).mp hfull
    have hwide' : (2 ^ 52 * 2 ^ n : ℝ) ≤ m := by exact_mod_cast hwide
    exact hwide'.trans h.le
  · have hexponent : e + n = exponentOf m e := by omega
    rw [UnpackedFloat.roundWithAccuracy, shiftToTargetExponent_eq, hn, hexponent]
    exact sized_settled s (by omega) (le_max_right _ _) (hfull.imp_left fun h => by omega)

/-! ### Units -/

/-- A whole number of bits, no more than half a bit away from a real number; a bit is a single
unit, or the real number has 52 more of them. -/
structure Settles (x : ℝ) (j : ℕ) (z : ℤ) : Prop where
  /-- There are whole bits only. -/
  dvd : (2 ^ j : ℤ) ∣ z
  /-- The real number is half a bit away at most. -/
  near : 2 * |(z : ℝ) - x| ≤ 2 ^ j
  /-- The bit is small. -/
  wide : j = 0 ∨ 2 ^ (52 + j) ≤ |x|

/-- The units that a real number of units is rounded to: those that settle it, with the infinities
in place of those beyond the greatest double. -/
def Nearest (x : ℝ) (y : ℤ) : Prop :=
  ∃ j z, Settles x j z ∧ y = max (-(limit : ℤ)) (min limit z)

theorem Settles.neg {j : ℕ} {z : ℤ} (h : Settles x j z) : Settles (-x) j (-z) := by
  refine ⟨h.dvd.neg_right, ?_, by rw [abs_neg]; exact h.wide⟩
  rw [Int.cast_neg, neg_sub_neg, abs_sub_comm]
  exact h.near

theorem Nearest.neg {y : ℤ} (h : Nearest x y) : Nearest (-x) (-y) := by
  obtain ⟨j, z, hsettles, rfl⟩ := h
  exact ⟨j, -z, hsettles.neg, by omega⟩

theorem Nearest.apply {y : ℤ} (h : Nearest x y) (s : Sign) :
    Nearest ((s.apply 1 : ℤ) * x) (s.apply y) := by
  cases s with
  | negative =>
    have hopposite := h.neg
    rw [← neg_one_mul] at hopposite
    simpa [Sign.apply] using hopposite
  | positive => simpa [Sign.apply] using h

/-- A canonical size settles what its mantissa was rounded from. -/
theorem settles_size {r : ℕ} {e' : ℤ} (he : e ≤ e') (hleast : -1074 ≤ e')
    (hnear : 2 * |(r * 2 ^ (e' - e).toNat : ℝ) - x| ≤ 2 ^ (e' - e).toNat)
    (hwide : 2 ^ 52 * 2 ^ (e' - e).toNat ≤ x ∨ e' = -1074) :
    Settles (x * 2 ^ (e + 1074)) (e' + 1074).toNat (size r e' : ℕ) := by
  have hscale : (2 : ℝ) ^ (e' + 1074).toNat = 2 ^ (e' - e).toNat * 2 ^ (e + 1074) := by
    rw [← zpow_natCast, ← zpow_natCast, ← zpow_add₀ two_ne_zero]
    congr 1
    omega
  have hpos : (0 : ℝ) < 2 ^ (e + 1074) := zpow_pos two_pos _
  have hfactor : ((size r e' : ℕ) : ℝ) - x * 2 ^ (e + 1074) =
      (r * 2 ^ (e' - e).toNat - x) * 2 ^ (e + 1074) := by
    rw [size, Nat.cast_mul, Nat.cast_pow, Nat.cast_ofNat, hscale]
    ring
  constructor
  case dvd => exact_mod_cast Dvd.intro_left r rfl
  case near =>
    rw [Int.cast_natCast, hfactor, abs_mul, abs_of_pos hpos, hscale, ← mul_assoc]
    exact mul_le_mul_of_nonneg_right hnear hpos.le
  case wide =>
    rcases hwide with hwide | hleast'
    · right
      rw [pow_add, hscale, ← mul_assoc]
      exact (mul_le_mul_of_nonneg_right hwide hpos.le).trans (le_abs_self _)
    · left
      omega

/-- What is stored after rounding is nearest to what was approximated. -/
theorem Approximates.nearest (h : Approximates x m accuracy) (s : Sign)
    (he : e ≤ exponentOf m e) :
    Nearest (s.apply 1 * (x * 2 ^ (e + 1074))) (unitsOf (stored
        (UnpackedFloat.roundWithAccuracy Format.binary64 s m e accuracy))) ∧
      stored (UnpackedFloat.roundWithAccuracy Format.binary64 s m e accuracy) ≠ .notANumber := by
  obtain ⟨r, hnear, hwide, hsized⟩ := h.sized s he
  have hsettles := settles_size he (le_max_right _ _) hnear hwide
  have hnearest : Nearest (x * 2 ^ (e + 1074)) (min (size r (exponentOf m e)) limit : ℕ) :=
    ⟨_, _, hsettles, by omega⟩
  rw [hsized.stored.1]
  exact ⟨hnearest.apply s, hsized.stored.2⟩

/-! ### Nothing is nearer -/

variable {y d d' : ℤ} {j : ℕ} {z : ℤ}

/-- A large representable number has whole bits only. -/
theorem Representable.dvd_of_le (hd : Representable d) (h : 2 ^ (52 + j) ≤ |d|) :
    (2 ^ j : ℤ) ∣ d := by
  rw [Int.abs_eq_natAbs] at h
  have hle : 2 ^ (52 + j) ≤ d.natAbs := by exact_mod_cast h
  have hzero : d.natAbs ≠ 0 := (Nat.lt_of_lt_of_le (Nat.two_pow_pos _) hle).ne'
  have hlog := (Nat.le_log2 hzero).mpr hle
  have hdvd : 2 ^ j ∣ ulp d := Nat.pow_dvd_pow 2 (by omega)
  exact (by exact_mod_cast hdvd : (2 ^ j : ℤ) ∣ ulp d).trans hd.dvd

/-- Of the whole numbers of bits none is nearer. -/
theorem Settles.abs_sub_le_of_dvd (h : Settles x j z) {c : ℤ} (hc : (2 ^ j : ℤ) ∣ c) :
    |(z : ℝ) - x| ≤ |(c : ℝ) - x| := by
  rcases eq_or_ne c z with rfl | hne
  · exact le_rfl
  · have hgap : (2 : ℤ) ^ j ≤ |c - z| :=
      Int.le_of_dvd (abs_pos.mpr (sub_ne_zero.mpr hne)) ((dvd_abs _ _).mpr (dvd_sub hc h.dvd))
    have hgap' : (2 : ℝ) ^ j ≤ |(c : ℝ) - z| := by exact_mod_cast hgap
    have htriangle := abs_sub_le (c : ℝ) x z
    have hnear := h.near
    rw [abs_sub_comm] at hnear
    rw [abs_sub_comm (z : ℝ)]
    linarith

/-- Of the representable numbers none is nearer. -/
theorem Settles.abs_sub_le (h : Settles x j z) (hd : Representable d) :
    |(z : ℝ) - x| ≤ |(d : ℝ) - x| := by
  by_cases hlarge : j = 0 ∨ 2 ^ (52 + j) ≤ |d|
  · refine h.abs_sub_le_of_dvd ?_
    rcases hlarge with rfl | hlarge
    · rw [pow_zero]
      exact one_dvd d
    · exact hd.dvd_of_le hlarge
  · -- Between a smaller number and the real one there is a whole number of bits.
    obtain ⟨hj, hsmall⟩ := not_or.mp hlarge
    have hwide := h.wide.resolve_left hj
    have hsmall' : |(d : ℝ)| ≤ 2 ^ (52 + j) := by exact_mod_cast (not_le.mp hsmall).le
    have hdvd : (2 ^ j : ℤ) ∣ 2 ^ (52 + j) := Dvd.intro_left (2 ^ 52) (pow_add 2 52 j).symm
    obtain ⟨hlow, hhigh⟩ := abs_le.mp hsmall'
    rcases abs_cases x with ⟨habs, hx⟩ | ⟨habs, hx⟩
    · refine (h.abs_sub_le_of_dvd hdvd).trans ?_
      push_cast
      rw [abs_of_nonpos (by linarith), abs_of_nonpos (by linarith)]
      linarith
    · refine (h.abs_sub_le_of_dvd (dvd_neg.mpr hdvd)).trans ?_
      push_cast
      rw [abs_of_nonneg (by linarith), abs_of_nonneg (by linarith)]
      linarith

/-- **Nothing that a double can have as its units is nearer** to the real number. -/
theorem Nearest.abs_sub_le (h : Nearest x y) (hd : Representable d) :
    |(y : ℝ) - x| ≤ |(d : ℝ) - x| := by
  obtain ⟨j, z, hsettles, rfl⟩ := h
  have hz := hsettles.abs_sub_le hd
  obtain ⟨hlow, hhigh⟩ := abs_le.mp hd.abs_le_limit
  have hlow' : -(limit : ℝ) ≤ d := by exact_mod_cast hlow
  have hhigh' : (d : ℝ) ≤ limit := by exact_mod_cast hhigh
  push_cast
  -- What takes the place of `z` is between `z` and `d`.
  have hupper : max (-(limit : ℝ)) (min limit z) ≤ max (d : ℝ) z :=
    max_le_max hlow' (min_le_right _ _)
  have hlower : min (d : ℝ) z ≤ max (-(limit : ℝ)) (min limit z) :=
    (min_le_min_right _ hhigh').trans (le_max_right _ _)
  have hdl := neg_abs_le ((d : ℝ) - x)
  have hdu := le_abs_self ((d : ℝ) - x)
  obtain ⟨hzl, hzu⟩ := abs_le.mp hz
  refine abs_le.mpr ⟨?_, ?_⟩
  · rcases min_le_iff.mp hlower with hle | hle <;> linarith
  · rcases le_max_iff.mp hupper with hle | hle <;> linarith

/-- Rounding does not pass a representable number from above. -/
theorem Nearest.le (h : Nearest x y) (hd : Representable d) (hle : d ≤ x) : d ≤ y := by
  by_contra! hlt
  have hlt' : (y : ℝ) < d := by exact_mod_cast hlt
  have hnear := h.abs_sub_le hd
  rw [abs_of_nonpos (by linarith), abs_of_nonpos (by linarith)] at hnear
  linarith

/-- The same from below. -/
theorem Nearest.ge (h : Nearest x y) (hd : Representable d) (hle : x ≤ d) : y ≤ d := by
  refine neg_le_neg_iff.mp (h.neg.le hd.neg ?_)
  push_cast
  exact neg_le_neg hle

/-- The same on both sides of zero. -/
theorem Nearest.le_abs (h : Nearest x y) (hd : Representable d) (hle : d ≤ |x|) : d ≤ |y| := by
  rcases abs_cases x with ⟨habs, -⟩ | ⟨habs, -⟩
  · exact (h.le hd (habs ▸ hle)).trans (le_abs_self y)
  · exact (h.neg.le hd (habs ▸ hle)).trans (neg_le_abs y)

/-- A representable number is rounded to itself. -/
theorem Nearest.eq (h : Nearest d y) (hd : Representable d) : y = d :=
  le_antisymm (h.ge hd le_rfl) (h.le hd le_rfl)

/-- A number that is rounded to the lower one of two others, or below, is not beyond the middle
between them. -/
theorem Nearest.two_mul_le (h : Nearest x y) (hyd : y ≤ d) (hdd : d < d')
    (hd' : Representable d') : 2 * x ≤ d + d' := by
  by_contra! hlt
  have hyd' : (y : ℝ) ≤ d := by exact_mod_cast hyd
  have hdd' : (d : ℝ) < d' := by exact_mod_cast hdd
  have hnear := h.abs_sub_le hd'
  rw [abs_of_nonpos (a := (y : ℝ) - x) (by linarith)] at hnear
  rcases abs_cases ((d' : ℝ) - x) with ⟨habs, hsign⟩ | ⟨habs, hsign⟩ <;> linarith

/-- Twice a representable number is representable, unless it is beyond the infinities. -/
theorem Representable.double (hd : Representable d) (hle : |2 * d| ≤ limit) :
    Representable (2 * d) := by
  refine ⟨?_, hle⟩
  rcases eq_or_ne d 0 with rfl | hzero
  · exact dvd_zero _
  · have hlog : (2 * d).natAbs.log2 = d.natAbs.log2 + 1 := by
      have htwo : (2 : ℤ).natAbs = 2 := rfl
      rw [Int.natAbs_mul, htwo, Nat.log2_two_mul (Int.natAbs_ne_zero.mpr hzero)]
    have hulp : ulp (2 * d) ∣ 2 * ulp d := by
      rw [ulp, ulp, hlog, ← Nat.pow_succ']
      exact Nat.pow_dvd_pow 2 (by omega)
    have hcast : (ulp (2 * d) : ℤ) ∣ 2 * ulp d := by exact_mod_cast hulp
    exact hcast.trans (mul_dvd_mul_left 2 hd.dvd)

/-! ### What is added or left out -/

/-- **The error is in proportion to the number**, apart from half a unit. -/
theorem Nearest.error_le (h : Nearest x y) (hy : |y| < limit) :
    2 ^ 53 * |(y : ℝ) - x| ≤ |x| + 2 ^ 52 := by
  obtain ⟨j, z, hsettles, rfl⟩ := h
  have hclamp := abs_lt.mp hy
  have hz : max (-(limit : ℤ)) (min limit z) = z := by omega
  rw [hz]
  have hnear := hsettles.near
  rcases hsettles.wide with rfl | hwide
  · have := abs_nonneg x
    linarith
  · rw [pow_add] at hwide
    linarith

theorem representable_limit : Representable limit := (Held.infinity .positive).representable

theorem representable_two_pow {k : ℕ} (hk : 2 ^ k ≤ limit) : Representable (2 ^ k) := by
  have hulp : ulp (2 ^ k : ℕ) ∣ 2 ^ k := by
    rw [ulp, Int.natAbs_natCast, Nat.log2_two_pow]
    exact Nat.pow_dvd_pow 2 (Nat.sub_le k 52)
  exact_mod_cast representable_natCast hulp hk

/-- The error is in proportion to the result, unless it is one of the least. -/
theorem Nearest.sub_le (h : Nearest x y) (hx : 2 ^ 52 ≤ x) (hlimit : x ≤ limit) :
    2 ^ 53 * (x - y) ≤ y := by
  have h' := h
  obtain ⟨j, z, hsettles, hy⟩ := h'
  have hbit : (2 : ℝ) ^ (52 + j) ≤ x := by
    rcases hsettles.wide with rfl | hwide
    · exact hx
    · rwa [abs_of_nonneg (by linarith)] at hwide
  -- The result has as many bits as the number.
  have hlarge : (2 : ℝ) ^ (52 + j) ≤ y := by
    have hpow : 2 ^ (52 + j) ≤ limit := by exact_mod_cast hbit.trans hlimit
    have hle := h.le (representable_two_pow hpow) (by exact_mod_cast hbit)
    exact_mod_cast hle
  rcases le_total (limit : ℤ) z with hz | hz
  · have hy' : (y : ℝ) = limit := by
      have : y = limit := by omega
      exact_mod_cast this
    have hpos : (0 : ℝ) ≤ limit := Nat.cast_nonneg _
    rw [hy'] at hlarge ⊢
    linarith
  · have hzy : (z : ℝ) ≤ y := by
      have : z ≤ y := by omega
      exact_mod_cast this
    have hnear := neg_abs_le ((z : ℝ) - x)
    have hnear' := hsettles.near
    rw [pow_add] at hlarge
    linarith

end Stepwise.Double
