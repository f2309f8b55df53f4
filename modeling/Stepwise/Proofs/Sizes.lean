import Stepwise.Objective
import Stepwise.Linear.Elimination
import Stepwise.Proofs.Faultless
import Stepwise.Proofs.Linear.Vectors

/-!
# Sizes that fit

Vectors and matrices carry no dimension in their types, so whether a calculation with them has
a value depends on their sizes. Here the sizes are followed through every operation: vectors
of one length `n`, and square matrices of that size, fit together, and what the operations
make of them is of that size again.

The same is said of functions. An objective fits the dimension `n` if it has values on vectors
of that length and its derivatives, as far as they are supplied, have the sizes they should.
It need not have a value anywhere else. Completed by differences it still fits, since a
difference quotient looks at vectors of the same length only
(`Stepwise.Objective.Fits.complete`).
-/

namespace Stepwise

variable {R : Type} {n : Nat}

/-! ### Vectors -/

namespace Vec

/-- Vectors of one length can be joined. -/
theorem total_combine (g : R → R → R) {v w : Vec R} (hv : v.length = n) (hw : w.length = n) :
    Total (·.length = n) (combine g v w) := by
  have hcombine : combine g v w = .ok (List.zipWith g v w) := if_pos (hv.trans hw.symm)
  exact total_iff.mpr ⟨_, hcombine, (length_of_combine hcombine).trans hv⟩

@[simp] theorem length_replace (v : Vec R) (i : Nat) (a : R) : (v.replace i a).length = v.length :=
  List.length_set

variable [Scalar R]

@[simp] theorem length_zero (n : Nat) : (zero n : Vec R).length = n := List.length_replicate

@[simp] theorem length_neg (v : Vec R) : v.neg.length = v.length := List.length_map _

@[simp] theorem length_scale (v : Vec R) (a : R) : (v.scale a).length = v.length :=
  List.length_map _

@[simp] theorem length_divide (v : Vec R) (a : R) : (v.divide a).length = v.length :=
  List.length_map _

/-- To add a multiple of a vector that fits. -/
theorem total_add_scale {v w : Vec R} (hv : v.length = n) (hw : w.length = n) (a : R) :
    Total (·.length = n) (v.add (w.scale a)) :=
  total_combine _ hv ((w.length_scale a).trans hw)

/-- To take away a multiple of a vector that fits. -/
theorem total_sub_scale {v w : Vec R} (hv : v.length = n) (hw : w.length = n) (a : R) :
    Total (·.length = n) (v.sub (w.scale a)) :=
  total_combine _ hv ((w.length_scale a).trans hw)

theorem total_dot {v w : Vec R} (hv : v.length = n) (hw : w.length = n) :
    Defined (dot v w) :=
  (total_combine _ hv hw).bind fun _ _ => trivial

end Vec

/-! ### Matrices -/

namespace Mat

/-- There are `n` rows and `n` columns. -/
structure Square (n : Nat) (m : Mat R) : Prop where
  /-- The number of rows. -/
  height_eq : m.height = n
  /-- The number of columns. -/
  width_eq : m.width = n

theorem square_ofFn (entry : Nat → Nat → R) : (ofFn n n entry).Square n :=
  ⟨height_ofFn n n entry, width_ofFn n n entry⟩

variable [Scalar R] {a b : Mat R} {v w : Vec R}

theorem square_identity : (identity n : Mat R).Square n := square_ofFn _

theorem square_outer (hv : v.length = n) (hw : w.length = n) : (outer v w).Square n :=
  ⟨by rw [Mat.height, outer, List.length_map, hv], hw⟩

theorem Square.divide (h : a.Square n) (c : R) : (a.divide c).Square n :=
  ⟨(List.length_map _).trans h.height_eq, h.width_eq⟩

theorem Square.transpose (h : a.Square n) : a.transpose.Square n := by
  rw [Mat.transpose, h.width_eq, h.height_eq]
  exact square_ofFn _

theorem total_combine (g : R → R → R) (ha : a.Square n) (hb : b.Square n) :
    Total (Square n) (combine g a b) := by
  rw [combine, if_pos ⟨ha.height_eq.trans hb.height_eq.symm, ha.width_eq.trans hb.width_eq.symm⟩,
    ha.height_eq, ha.width_eq]
  exact square_ofFn _

theorem total_mulVec (ha : a.Square n) (hv : v.length = n) :
    Total (·.length = n) (a.mulVec v) := by
  rw [mulVec, if_pos (ha.width_eq.trans hv.symm)]
  exact (List.length_map _).trans ha.height_eq

theorem total_mul (ha : a.Square n) (hb : b.Square n) : Total (Square n) (a.mul b) := by
  rw [mul, if_pos (ha.width_eq.trans hb.height_eq.symm)]
  exact ⟨(List.length_map _).trans ha.height_eq, hb.transpose.height_eq⟩

end Mat

/-! ### Systems -/

variable [Scalar R]

/-- A solution has a component for every unknown. -/
theorem Equation.length_of_solve {system : List (Equation R)} {unknowns : Vec R}
    (h : solve n system = some unknowns) : unknowns.length = n := by
  -- The unknowns are taken out one by one, and each smaller system is another one.
  induction n generalizing system unknowns with
  | zero =>
    cases h
    rfl
  | succ n ih =>
    rw [solve] at h
    split at h
    · exact nomatch h
    · dsimp only at h
      split at h
      · exact nomatch h
      · split at h
        · exact nomatch h
        · rename_i rest hrest
          cases h
          rw [List.length_cons, ih hrest]

/-- A square system is solved or found to be singular. -/
theorem Mat.total_solve {m : Mat R} {b : Vec R} (hm : m.Square n) (hb : b.length = n) :
    Total (fun x? => ∀ x, x? = some x → x.length = n) (m.solve b) := by
  rw [Mat.solve, if_pos ⟨hm.height_eq.trans hb.symm, hm.width_eq.trans hm.height_eq.symm⟩,
    hm.height_eq]
  exact fun _ hx => Equation.length_of_solve hx

/-! ### Differences -/

theorem total_twoSided {α : Type} {P : α → Prop} {f : Vec R → Except Fault α}
    (hf : ∀ x : Vec R, x.length = n → Total P (f x)) {x : Vec R} (hx : x.length = n) (h : R)
    (i : Nat) (origin : R) : Total (fun values => P values.1 ∧ P values.2)
      (twoSided f x h i origin) := by
  refine (hf _ ((x.length_replace i _).trans hx)).bind fun _ hforward => ?_
  exact (hf _ ((x.length_replace i _).trans hx)).bind fun _ hbackward => ⟨hforward, hbackward⟩

theorem total_centralGradient {f : Vec R → Except Fault R}
    (hf : ∀ x : Vec R, x.length = n → Defined (f x)) (h : R) {x : Vec R}
    (hx : x.length = n) : Total (·.length = n) (centralGradient f h x) := by
  rw [centralGradient, alongAxes_eq]
  refine (Sound.mapM (Q := fun _ => True) fun (origin, i) _ => ?_).imp
    fun _ h => by rw [h.1, List.length_zipIdx, hx]
  exact (total_twoSided hf hx h i origin).bind fun _ _ => trivial

theorem total_centralJacobian {g : Vec R → Except Fault (Vec R)}
    (hg : ∀ x : Vec R, x.length = n → Total (·.length = n) (g x)) (h : R) {x : Vec R}
    (hx : x.length = n) : Total (Mat.Square n) (centralJacobian g h x) := by
  simp only [centralJacobian, alongAxes_eq]
  refine Sound.bind (P := fun columns => columns.length = n) ?_ fun columns hcolumns => ?_
  · refine (Sound.mapM (Q := fun _ => True) fun (origin, i) _ => ?_).imp
      fun _ h => by rw [h.1, List.length_zipIdx, hx]
    refine (total_twoSided hg hx h i origin).bind fun (forward, backward) hvalues => ?_
    refine (Vec.total_combine _ hvalues.1 hvalues.2).bind fun difference hdifference => ?_
    rw [if_pos (by rw [Vec.length_divide, hdifference, hx])]
    trivial
  · rw [Mat.ofColumns, hcolumns, hx]
    exact Mat.square_ofFn _

/-! ### Objectives -/

/-- An oracle answers every question about vectors of length `n`, and what it answers has the
size it should have. -/
structure Oracle.Fits (n : Nat) (f : Oracle R) : Prop where
  /-- There is a value. -/
  value : ∀ x, x.length = n → Defined (f.value x)
  /-- There is a gradient of that length. -/
  gradient : ∀ x, x.length = n → Total (·.length = n) (f.gradient x)
  /-- There is a square Hessian. -/
  hessian : ∀ x, x.length = n → Total (Mat.Square n) (f.hessian x)

/-- An objective has a value on vectors of length `n`, and the derivatives that are supplied
have the sizes they should have. -/
structure Objective.Fits (n : Nat) (f : Objective R) : Prop where
  /-- There is a value. -/
  value : ∀ x, x.length = n → ∃ v, f.value x = .ok v
  /-- If a gradient is supplied, it has that length. -/
  gradient : ∀ g, f.gradient? = some g → ∀ x, x.length = n → ∃ v, g x = .ok v ∧ v.length = n
  /-- If a Hessian is supplied, it is square. -/
  hessian : ∀ h, f.hessian? = some h → ∀ x, x.length = n → ∃ m, h x = .ok m ∧ m.Square n

/-- **What fits, fits when it is completed.** -/
theorem Objective.Fits.complete {f : Objective R} (hf : f.Fits n) (h : R) :
    (f.complete h).Fits n := by
  have hvalue : ∀ x, x.length = n → Defined (f.value x) := by
    intro x hx
    obtain ⟨v, hv⟩ := hf.value x hx
    exact total_iff.mpr ⟨v, hv, trivial⟩
  have hgradient : ∀ x, x.length = n → Total (·.length = n) ((f.complete h).gradient x) := by
    intro x hx
    cases hg : f.gradient? with
    | none =>
      simp only [Objective.complete, hg, Option.getD_none]
      exact total_centralGradient hvalue h hx
    | some g =>
      simp only [Objective.complete, hg, Option.getD_some]
      exact total_iff.mpr (hf.gradient g hg x hx)
  refine ⟨hvalue, hgradient, fun x hx => ?_⟩
  cases hh : f.hessian? with
  | none =>
    have hjacobian : (f.complete h).hessian x = centralJacobian (f.complete h).gradient h x := by
      simp only [Objective.complete, hh, Option.getD_none]
    rw [hjacobian]
    exact total_centralJacobian hgradient h hx
  | some supplied =>
    simp only [Objective.complete, hh, Option.getD_some]
    exact total_iff.mpr (hf.hessian supplied hh x hx)

end Stepwise
