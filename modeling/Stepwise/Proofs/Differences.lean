import Mathlib.Tactic.FieldSimp
import Stepwise.Differences
import Stepwise.Proofs.Linear.Vectors

/-!
# Central differences

A gradient by central differences is made of difference quotients, one for each axis, whatever
the numbers are (`Stepwise.getElem?_of_centralGradient`). In exact arithmetic, for a function
that has a value everywhere, it is the family of them (`Stepwise.centralGradient_ofFn`).

Of the square of the length of an affine map a central difference is the derivative,
whatever its step is: what the two sides have in common cancels, and so do the squares of
what they differ in (`Stepwise.centralGradient_square`).
-/

namespace Stepwise

open Matrix

/-- A calculation that succeeds for every member of a family gives the family of results. -/
theorem mapM_ofFn {ε α β : Type} {n : ℕ} {g : α → Except ε β} {a : Fin n → α} {r : Fin n → β}
    (h : ∀ i, g (a i) = .ok (r i)) : (List.ofFn a).mapM g = .ok (List.ofFn r) := by
  induction n with
  | zero => simp [pure, Except.pure]
  | succ n ih =>
    rw [List.ofFn_succ, List.mapM_cons, h 0, ok_bind, ih fun i => h i.succ, List.ofFn_succ]
    rfl

/-! ### One component -/

/-- A component of a gradient by central differences is the difference quotient along its axis. -/
theorem getElem?_of_centralGradient {R : Type} [Scalar R] {f : Vec R → Except Fault R} {h : R}
    {x gradient : Vec R} (hgradient : centralGradient f h x = .ok gradient) {i : ℕ} {origin : R}
    (horigin : x[i]? = some origin) :
    ∃ forward backward, twoSided f x h i origin = .ok (forward, backward) ∧
      gradient[i]? = some ((forward - backward) / (Scalar.ofNat 2 * h)) := by
  have hzip : x.zipIdx[i]? = some (origin, i) := by
    rw [List.getElem?_zipIdx, horigin, Nat.zero_add]
    rfl
  rw [centralGradient, alongAxes_eq] at hgradient
  obtain ⟨quotient, hquotient, hget⟩ := getElem?_of_mapM hgradient hzip
  obtain ⟨⟨forward, backward⟩, hsides, h⟩ := bind_eq_ok.mp hquotient
  rw [pure_eq_ok_iff] at h
  exact ⟨forward, backward, hsides, h ▸ hget⟩

/-! ### The gradient -/

variable {n : ℕ} {F : (Fin n → ℝ) → ℝ} {value : Vec ℝ → Except Fault ℝ}

theorem replace_ofFn {R : Type} (u : Fin n → R) (i : Fin n) (a : R) :
    Vec.replace (List.ofFn u) i a = List.ofFn (Function.update u i a) := by
  refine List.ext_getElem (by simp [Vec.replace]) fun j hj _ => ?_
  simp [Vec.replace, List.getElem_set, Function.update_apply, Fin.ext_iff, eq_comm]

/-- A point one step along an axis. -/
theorem update_eq_add (u : Fin n → ℝ) (i : Fin n) (h : ℝ) :
    Function.update u i (u i + h) = u + h • Pi.single i 1 := by
  funext j
  rcases eq_or_ne j i with rfl | hne
  · simp
  · simp [hne]

/-- The two sides are read off the values one step forward and one step back. -/
theorem twoSided_ofFn {α : Type} {f : Vec ℝ → Except Fault α} {u : Fin n → ℝ} {h : ℝ} {i : Fin n}
    {forward backward : α} (hforward : f (List.ofFn (u + h • Pi.single i 1)) = .ok forward)
    (hbackward : f (List.ofFn (u - h • Pi.single i 1)) = .ok backward) :
    twoSided f (List.ofFn u) h i (u i) = .ok (forward, backward) := by
  have hback : u - h • Pi.single i 1 = Function.update u i (u i - h) := by
    rw [sub_eq_add_neg (u i), update_eq_add, neg_smul, ← sub_eq_add_neg]
  rw [← update_eq_add] at hforward
  rw [hback] at hbackward
  simp only [twoSided, replace_ofFn, hforward, hbackward, ok_bind]
  rfl

theorem zipIdx_ofFn {R : Type} (u : Fin n → R) :
    (List.ofFn u).zipIdx = List.ofFn fun i : Fin n => (u i, (i : ℕ)) :=
  List.ext_getElem (by simp) (by simp)

/-- **The gradient by central differences is the family of difference quotients**; only the values
one step forward and one step back along the axes are asked for. -/
theorem centralGradient_of_sides {h : ℝ} {u forward backward : Fin n → ℝ}
    (hforward : ∀ i, value (List.ofFn (u + h • Pi.single i 1)) = .ok (forward i))
    (hbackward : ∀ i, value (List.ofFn (u - h • Pi.single i 1)) = .ok (backward i)) :
    centralGradient value h (List.ofFn u) =
      .ok (List.ofFn fun i => (forward i - backward i) / (2 * h)) := by
  rw [centralGradient, alongAxes_eq, zipIdx_ofFn]
  refine mapM_ofFn fun i => ?_
  dsimp only
  rw [twoSided_ofFn (hforward i) (hbackward i), ok_bind, Scalar.ofNat_real, Nat.cast_ofNat]
  rfl

theorem centralGradient_ofFn (hF : ∀ u, value (List.ofFn u) = .ok (F u)) (h : ℝ)
    (u : Fin n → ℝ) :
    centralGradient value h (List.ofFn u) = .ok (List.ofFn fun i =>
      (F (u + h • Pi.single i 1) - F (u - h • Pi.single i 1)) / (2 * h)) :=
  centralGradient_of_sides (fun _ => hF _) fun _ => hF _

/-- In the middle of an even function all difference quotients vanish. -/
theorem centralGradient_even (hF : ∀ u, value (List.ofFn u) = .ok (F u)) (heven : ∀ u, F (-u) = F u)
    (h : ℝ) : centralGradient value h (List.ofFn (0 : Fin n → ℝ)) =
      .ok (List.ofFn (0 : Fin n → ℝ)) := by
  rw [centralGradient_ofFn hF]
  congr 2
  funext i
  rw [zero_add, zero_sub, heven, sub_self, zero_div]
  rfl

/-! ### Squares -/

/-- What two points at the same distance on both sides have in common cancels. -/
theorem dotProduct_two_sided (r d : Fin n → ℝ) :
    (r + d) ⬝ᵥ (r + d) - (r - d) ⬝ᵥ (r - d) = 4 * (d ⬝ᵥ r) := by
  simp only [add_dotProduct, dotProduct_add, sub_dotProduct, dotProduct_sub, dotProduct_comm r d]
  ring

/-- **Central differences of the square of an affine map are exact.** -/
theorem centralGradient_square (M : Matrix (Fin n) (Fin n) ℝ) (b : Fin n → ℝ)
    (hF : ∀ u, value (List.ofFn u) = .ok ((M *ᵥ u - b) ⬝ᵥ (M *ᵥ u - b))) {h : ℝ} (hh : h ≠ 0)
    (u : Fin n → ℝ) :
    centralGradient value h (List.ofFn u) =
      .ok (List.ofFn ((2 : ℝ) • (Mᵀ *ᵥ (M *ᵥ u - b)))) := by
  rw [centralGradient_ofFn hF]
  congr 2
  funext i
  have hforward : M *ᵥ (u + h • Pi.single i 1) - b = (M *ᵥ u - b) + h • M.col i := by
    rw [mulVec_add, mulVec_smul, mulVec_single_one]
    abel
  have hbackward : M *ᵥ (u - h • Pi.single i 1) - b = (M *ᵥ u - b) - h • M.col i := by
    rw [mulVec_sub, mulVec_smul, mulVec_single_one]
    abel
  have hentry : (Mᵀ *ᵥ (M *ᵥ u - b)) i = M.col i ⬝ᵥ (M *ᵥ u - b) := rfl
  rw [hforward, hbackward, dotProduct_two_sided, smul_dotProduct, Pi.smul_apply, hentry]
  simp only [smul_eq_mul]
  field_simp
  ring

end Stepwise
