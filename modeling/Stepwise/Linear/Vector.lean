import Stepwise.Scalar
import Stepwise.Fault

/-!
# Vectors

A vector is the list of its components. Sums, differences and inner products exist
only for vectors of equal length; for others there is a fault.

Over doubles the order in which a sum is formed matters. An inner product collects
its products in eight lanes, eight products at a time, joins the lanes in pairs, and
adds the products left over one by one; for fewer than eight components this is the
plain sum from the left, started at zero.
-/

namespace Stepwise

/-- A vector: the list of its components. -/
abbrev Vec (R : Type) := List R

namespace Vec

variable {R : Type}

/-- Two vectors joined component by component, if they are equally long. -/
def combine (f : R → R → R) (v w : Vec R) : Except Fault (Vec R) :=
  if v.length = w.length then .ok (List.zipWith f v w) else .error (.lengths v.length w.length)

/-- The vector with one component replaced. -/
def replace (v : Vec R) (i : Nat) (a : R) : Vec R := v.set i a

/-- The component at an index. -/
def component (v : Vec R) (i : Nat) : Except Fault R :=
  match v[i]? with
  | some a => .ok a
  | none => .error (.component i v.length)

variable [Scalar R]

/-- The vector of `n` zeros. -/
def zero (n : Nat) : Vec R := List.replicate n (Scalar.ofNat 0)

/-- The sum of two vectors. -/
def add (v w : Vec R) : Except Fault (Vec R) := combine (· + ·) v w

/-- The difference of two vectors. -/
def sub (v w : Vec R) : Except Fault (Vec R) := combine (· - ·) v w

/-- The opposite vector. -/
def neg (v : Vec R) : Vec R := v.map (- ·)

/-- Every component times a number. -/
def scale (v : Vec R) (a : R) : Vec R := v.map (· * a)

/-- Every component divided by a number. -/
def divide (v : Vec R) (a : R) : Vec R := v.map (· / a)

/-! ### Sums in eight lanes -/

/-- Eight running totals. -/
structure Lanes (R : Type) where
  /-- The totals at positions `0` to `3` of each block of eight. -/
  (a b c d : R)
  /-- The totals at positions `4` to `7` of each block of eight. -/
  (e f g h : R)

/-- No lane holds anything yet. -/
def Lanes.empty : Lanes R :=
  let z := Scalar.ofNat 0
  ⟨z, z, z, z, z, z, z, z⟩

/-- Fills the lanes from blocks of eight; what remains is shorter than a block. -/
def Lanes.fill (t : Lanes R) : Vec R → Lanes R × Vec R
  | x₀ :: x₁ :: x₂ :: x₃ :: x₄ :: x₅ :: x₆ :: x₇ :: rest =>
    Lanes.fill ⟨t.a + x₀, t.b + x₁, t.c + x₂, t.d + x₃, t.e + x₄, t.f + x₅, t.g + x₆, t.h + x₇⟩
      rest
  | rest => (t, rest)

/-- The lanes joined in pairs, four apart. -/
def Lanes.total (t : Lanes R) : R :=
  Scalar.ofNat 0 + (t.a + t.e) + (t.b + t.f) + (t.c + t.g) + (t.d + t.h)

/-- The sum of a list of numbers, in lanes. -/
def total (v : Vec R) : R :=
  let (lanes, rest) := Lanes.empty.fill v
  rest.foldl (· + ·) lanes.total

/-! ### Inner product and length -/

/-- The inner product of two vectors. -/
def dot (v w : Vec R) : Except Fault R := do
  return total (← combine (· * ·) v w)

/-- The square of a vector's length. -/
def normSquared (v : Vec R) : R := Scalar.ofNat 0 + total (v.map fun a => a * a)

/-- The length of a vector. -/
def norm (v : Vec R) : R := Scalar.sqrt (normSquared v)

/-- Whether every component is finite. -/
def isFinite (v : Vec R) : Bool := v.all Scalar.isFinite

end Vec

end Stepwise
