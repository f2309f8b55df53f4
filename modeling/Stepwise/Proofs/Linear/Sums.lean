import Mathlib.Algebra.Order.Group.Multiset
import Mathlib.Tactic.Abel
import Stepwise.Linear.Vector

/-!
# Sums in some order

Where addition is rounded, a sum depends on the order in which it is formed, and a sum in lanes
has an order of its own. Many facts about sums hold in every order, though, and some depend on no
more than the number of additions that a summand goes through.

So a sum is read as a tree: a number is the sum of some others, counted with multiplicity, if it
is formed from them and from zeros by additions (`Stepwise.Summed`). The sum of a vector is one,
with little more additions above a component than there are components
(`Stepwise.Vec.total_summed`), and a fact about sums is proved along the tree.
-/

namespace Stepwise

variable {R : Type} [Scalar R]

/-- A number is the sum of the members of a multiset, formed in some order, with no more than `d`
additions from a member to the sum. -/
inductive Summed : ℕ → Multiset R → R → Prop
  /-- The sum of nothing. -/
  | zero (d : ℕ) : Summed d 0 (Scalar.ofNat 0)
  /-- A summand. -/
  | single (d : ℕ) (a : R) : Summed d {a} a
  /-- One addition. -/
  | add {d : ℕ} {s t : Multiset R} {x y : R} (hx : Summed d s x) (hy : Summed d t y) :
    Summed (d + 1) (s + t) (x + y)

variable {d d' : ℕ} {s t : Multiset R} {x y : R}

theorem Summed.mono (h : Summed d s x) (hle : d ≤ d') : Summed d' s x := by
  induction h generalizing d' with
  | zero => exact .zero d'
  | single => exact .single d' _
  | add _ _ ihx ihy =>
    obtain ⟨k, rfl⟩ : ∃ k, d' = k + 1 := ⟨d' - 1, by omega⟩
    exact .add (ihx (by omega)) (ihy (by omega))

/-- One more addition after others. -/
theorem Summed.concat (h : Summed d s x) (a : R) : Summed (d + 1) (s + {a}) (x + a) :=
  h.add (.single d a)

/-- Further summands are added one by one. -/
theorem Summed.foldl (h : Summed d s x) (v : Vec R) :
    Summed (d + v.length) (s + (v : Multiset R)) (v.foldl (· + ·) x) := by
  induction v generalizing d s x with
  | nil => simpa using h
  | cons a v ih =>
    have hall : s + ((a :: v : List R) : Multiset R) = s + {a} + (v : Multiset R) := by
      rw [add_assoc, Multiset.singleton_add, Multiset.cons_coe]
    rw [hall, List.length_cons, Nat.add_comm v.length, ← Nat.add_assoc]
    exact ih (h.concat a)

namespace Vec

/-! ### Lanes -/

/-- All that is in the lanes. -/
def Lanes.all (p : Lanes (Multiset R)) : Multiset R :=
  p.a + p.b + p.c + p.d + p.e + p.f + p.g + p.h

/-- Each lane holds the sum of what is in it. -/
structure Lanes.Holds (n : ℕ) (p : Lanes (Multiset R)) (t : Lanes R) : Prop where
  /-- Position `0`. -/
  a : Summed n p.a t.a
  /-- Position `1`. -/
  b : Summed n p.b t.b
  /-- Position `2`. -/
  c : Summed n p.c t.c
  /-- Position `3`. -/
  d : Summed n p.d t.d
  /-- Position `4`. -/
  e : Summed n p.e t.e
  /-- Position `5`. -/
  f : Summed n p.f t.f
  /-- Position `6`. -/
  g : Summed n p.g t.g
  /-- Position `7`. -/
  h : Summed n p.h t.h

/-- The lanes hold what has been taken from the vector, and the rest is left over. -/
theorem Lanes.Holds.fill {p : Lanes (Multiset R)} {t : Lanes R} (h : Holds d p t) (v : Vec R) :
    ∃ d' p', Holds d' p' (t.fill v).1 ∧ d' + (t.fill v).2.length ≤ d + v.length ∧
      p'.all + ((t.fill v).2 : Multiset R) = p.all + (v : Multiset R) := by
  fun_induction Lanes.fill t v generalizing d p with
  | case1 t x₀ x₁ x₂ x₃ x₄ x₅ x₆ x₇ rest ih =>
    -- A block adds one summand to every lane.
    obtain ⟨d', p', hholds, hdepth, hall⟩ := ih
      (p := ⟨p.a + {x₀}, p.b + {x₁}, p.c + {x₂}, p.d + {x₃}, p.e + {x₄}, p.f + {x₅}, p.g + {x₆},
        p.h + {x₇}⟩)
      ⟨h.a.concat x₀, h.b.concat x₁, h.c.concat x₂, h.d.concat x₃, h.e.concat x₄, h.f.concat x₅,
        h.g.concat x₆, h.h.concat x₇⟩
    refine ⟨d', p', hholds, ?_, hall.trans ?_⟩
    · simp only [List.length_cons] at hdepth ⊢
      omega
    · simp only [Lanes.all, ← Multiset.cons_coe, ← Multiset.singleton_add]
      abel
  | case2 t rest => exact ⟨d, p, h, le_rfl, rfl⟩

/-- The lanes are joined by five additions. -/
theorem Lanes.Holds.total {p : Lanes (Multiset R)} {t : Lanes R} (h : Holds d p t) :
    Summed (d + 5) p.all t.total := by
  have hpairs := (((((Summed.zero (d + 1)).add (h.a.add h.e)).add
    ((h.b.add h.f).mono (Nat.le_succ _))).add
    ((h.c.add h.g).mono (by omega))).add
    ((h.d.add h.h).mono (by omega)))
  have hall : 0 + (p.a + p.e) + (p.b + p.f) + (p.c + p.g) + (p.d + p.h) = p.all := by
    rw [Lanes.all]
    abel
  rw [hall] at hpairs
  exact hpairs

/-- **The sum of a vector is the sum of its components in some order.** -/
theorem total_summed (v : Vec R) : Summed (v.length + 5) (v : Multiset R) (total v) := by
  have hempty : Lanes.Holds 0 ⟨0, 0, 0, 0, 0, 0, 0, 0⟩ (Lanes.empty : Lanes R) :=
    ⟨.zero 0, .zero 0, .zero 0, .zero 0, .zero 0, .zero 0, .zero 0, .zero 0⟩
  obtain ⟨d, p, hholds, hdepth, hall⟩ := hempty.fill v
  have hsum := hholds.total.foldl (Lanes.empty.fill v).2
  rw [hall] at hsum
  simp only [Lanes.all, zero_add] at hsum
  exact hsum.mono (by omega)

end Vec

end Stepwise
