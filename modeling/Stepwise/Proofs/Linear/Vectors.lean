import Mathlib.Data.Matrix.Mul
import Mathlib.Algebra.BigOperators.Fin
import Mathlib.Tactic.Ring
import Mathlib.Tactic.SplitIfs
import Stepwise.Proofs.Linear.Sums
import Stepwise.Proofs.Outcomes
import Stepwise.Proofs.Reals

/-!
# Vectors in exact arithmetic

A vector is a list, and a list of length `n` lists the values of a family of `n`
numbers. On lists the operations check lengths and may fail; on families there is
nothing to check. The lemmas here say that the operations on lists are those on families
wherever the families have one dimension, so that a calculation with vectors over the
real numbers becomes one in linear algebra.

The order in which a sum is formed no longer matters: the eight lanes add up to the sum
of the list (`Stepwise.Vec.total_real`).
-/

namespace Stepwise.Vec

open Matrix

/-! ### Lists and families -/

section Families

variable {R : Type} {n : ℕ}

/-- A vector of length `n` lists a family of `n` numbers. -/
theorem exists_eq_ofFn {v : Vec R} (h : v.length = n) : ∃ u : Fin n → R, v = List.ofFn u := by
  subst h
  exact ⟨v.get, (List.ofFn_get v).symm⟩

theorem zipWith_ofFn {α β γ : Type} (f : α → β → γ) (u : Fin n → α) (v : Fin n → β) :
    List.zipWith f (List.ofFn u) (List.ofFn v) = List.ofFn fun i => f (u i) (v i) :=
  List.ext_getElem (by simp) (by simp)

theorem combine_ofFn (f : R → R → R) (u v : Fin n → R) :
    combine f (List.ofFn u) (List.ofFn v) = .ok (List.ofFn fun i => f (u i) (v i)) := by
  rw [combine, if_pos (by simp), zipWith_ofFn]

theorem map_eq_ofFn (f : R → R) (u : Fin n → R) :
    (List.ofFn u).map f = List.ofFn fun i => f (u i) := by
  rw [List.map_ofFn]
  rfl

/-- Vectors are joined only if they are equally long. -/
theorem combine_eq_ok {f : R → R → R} {v w u : Vec R} :
    combine f v w = .ok u ↔ v.length = w.length ∧ List.zipWith f v w = u := by
  rw [combine]
  split_ifs with hlength
  · simp [hlength]
  · simp [hlength]

/-- Joined vectors are as long as the first, which is as long as the second. -/
theorem length_of_combine {f : R → R → R} {v w u : Vec R} (h : combine f v w = .ok u) :
    u.length = v.length := by
  obtain ⟨hlength, rfl⟩ := combine_eq_ok.mp h
  simp [hlength]

/-- Only vectors that are equally long have an inner product. -/
theorem length_eq_of_dot [Scalar R] {v w : Vec R} {y : R} (h : dot v w = .ok y) :
    v.length = w.length := by
  obtain ⟨products, hproducts, -⟩ := bind_eq_ok.mp h
  exact (combine_eq_ok.mp hproducts).1

end Families

/-! ### Sums -/

/-- Formed in any order, a sum is the sum. -/
theorem eq_sum_of_summed {d : ℕ} {s : Multiset ℝ} {x : ℝ} (h : Summed d s x) : x = s.sum := by
  induction h with
  | zero => simp
  | single => simp
  | add _ _ ihx ihy => rw [Multiset.sum_add, ← ihx, ← ihy]

/-- **The lanes add up to the sum.** -/
theorem total_real (v : Vec ℝ) : total v = v.sum :=
  (eq_sum_of_summed (total_summed v)).trans (Multiset.sum_coe v)

/-! ### The operations -/

variable {n : ℕ} (u v : Fin n → ℝ) (a : ℝ)

@[simp] theorem zero_real (n : ℕ) : (zero n : Vec ℝ) = List.ofFn (0 : Fin n → ℝ) := by
  rw [zero, ← List.ofFn_const]
  simp [Pi.zero_def]

@[simp] theorem add_ofFn : add (List.ofFn u) (List.ofFn v) = .ok (List.ofFn (u + v)) :=
  combine_ofFn _ u v

@[simp] theorem sub_ofFn : sub (List.ofFn u) (List.ofFn v) = .ok (List.ofFn (u - v)) :=
  combine_ofFn _ u v

@[simp] theorem neg_ofFn : neg (List.ofFn u) = List.ofFn (-u) := map_eq_ofFn _ u

@[simp] theorem scale_ofFn : scale (List.ofFn u) a = List.ofFn (a • u) := by
  rw [scale, map_eq_ofFn]
  congr 1
  funext i
  exact mul_comm _ _

@[simp] theorem divide_ofFn : divide (List.ofFn u) a = List.ofFn (a⁻¹ • u) := by
  rw [divide, map_eq_ofFn]
  congr 1
  funext i
  exact div_eq_inv_mul _ _

@[simp] theorem dot_ofFn : dot (List.ofFn u) (List.ofFn v) = .ok (u ⬝ᵥ v) := by
  rw [dot, combine_ofFn, ok_bind, total_real, List.sum_ofFn]
  rfl

@[simp] theorem normSquared_ofFn : normSquared (List.ofFn u) = u ⬝ᵥ u := by
  rw [normSquared, map_eq_ofFn, total_real, List.sum_ofFn]
  simp [dotProduct]

theorem norm_ofFn : norm (List.ofFn u) = √(u ⬝ᵥ u) := by
  rw [norm, normSquared_ofFn]
  rfl

/-- A number is as long as it is large. -/
theorem norm_singleton (a : ℝ) : norm [a] = |a| := by
  rw [← Real.sqrt_mul_self_eq_abs]
  simpa [dotProduct] using norm_ofFn ![a]

end Stepwise.Vec
