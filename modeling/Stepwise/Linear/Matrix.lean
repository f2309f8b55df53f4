import Stepwise.Linear.Vector

/-!
# Matrices

A matrix is the list of its rows, all of one width; the width is kept beside the
rows because a matrix without rows still has one. Products of shapes that do not fit
are faults.

Each entry of a product starts from its first product of two numbers, and every
further product has the total so far added to it; a product over nothing is zero.
-/

namespace Stepwise

/-- A matrix: rows of one width. -/
structure Mat (R : Type) where
  /-- The number of columns. -/
  width : Nat
  /-- The rows, from the top. -/
  rows : List (Vec R)
  /-- Every row spans the width. -/
  width_of_mem : ∀ r ∈ rows, r.length = width

namespace Mat

variable {R : Type}

/-- The number of rows. -/
def height (m : Mat R) : Nat := m.rows.length

/-- The matrix with a given entry at every place. -/
def ofFn (height width : Nat) (entry : Nat → Nat → R) : Mat R where
  width := width
  rows := (List.range height).map fun i => (List.range width).map (entry i)
  width_of_mem := by simp

@[simp] theorem height_ofFn (height width : Nat) (entry : Nat → Nat → R) :
    (ofFn height width entry).height = height := by
  simp [ofFn, Mat.height]

@[simp] theorem width_ofFn (height width : Nat) (entry : Nat → Nat → R) :
    (ofFn height width entry).width = width := rfl

/-- The matrix with given rows, as wide as the first of them; rows of different
lengths make no matrix. -/
def ofRows (rows : List (Vec R)) : Except Fault (Mat R) :=
  let width := (rows.headD []).length
  if h : ∀ r ∈ rows, r.length = width then .ok ⟨width, rows, h⟩
  else .error (.shape rows.length width width)

variable [Scalar R]

/-- The entry in a row and a column, zero outside the matrix. -/
def entry (m : Mat R) (i j : Nat) : R := (m.rows.getD i []).getD j (Scalar.ofNat 0)

/-- Rows and columns exchanged. -/
def transpose (m : Mat R) : Mat R := ofFn m.width m.height fun i j => m.entry j i

/-- The matrix whose columns, each of length `height`, are given. -/
def ofColumns (height : Nat) (columns : List (Vec R)) : Mat R :=
  ofFn height columns.length fun i j => (columns.getD j []).getD i (Scalar.ofNat 0)

/-- The identity matrix. -/
def identity (n : Nat) : Mat R := ofFn n n fun i j => Scalar.ofNat (if i = j then 1 else 0)

/-- The products of the components of two vectors. -/
def outer (v w : Vec R) : Mat R where
  width := w.length
  rows := v.map fun a => w.map (a * ·)
  width_of_mem := by simp

/-- Two matrices joined entry by entry, if they have one shape. -/
def combine (f : R → R → R) (a b : Mat R) : Except Fault (Mat R) :=
  if a.height = b.height ∧ a.width = b.width then
    .ok (ofFn a.height a.width fun i j => f (a.entry i j) (b.entry i j))
  else .error (.shape a.height a.width b.width)

/-- The matrix of a given shape whose entries, row by row, are given, if their number is
right. -/
def ofEntries (height width : Nat) (entries : List R) : Option (Mat R) :=
  if entries.length = height * width then
    some (ofFn height width fun i j => entries.getD (i * width + j) (Scalar.ofNat 0))
  else none

/-- The sum of two matrices. -/
def add (a b : Mat R) : Except Fault (Mat R) := combine (· + ·) a b

/-- The difference of two matrices. -/
def sub (a b : Mat R) : Except Fault (Mat R) := combine (· - ·) a b

/-- Every entry divided by a number. -/
def divide (m : Mat R) (a : R) : Mat R where
  width := m.width
  rows := m.rows.map (Vec.divide · a)
  width_of_mem := by
    intro r hr
    obtain ⟨s, hs, rfl⟩ := List.mem_map.mp hr
    simpa [Vec.divide] using m.width_of_mem s hs

/-! ### Products -/

/-- A row times a column. -/
def rowTimes : Vec R → Vec R → R
  | a :: row, x :: column => (List.zip row column).foldl (fun sum p => p.1 * p.2 + sum) (a * x)
  | _, _ => Scalar.ofNat 0

/-- A matrix times a vector. -/
def mulVec (m : Mat R) (v : Vec R) : Except Fault (Vec R) :=
  if m.width = v.length then .ok (m.rows.map (rowTimes · v))
  else .error (.shape m.height m.width v.length)

/-- The product of two matrices. -/
def mul (a b : Mat R) : Except Fault (Mat R) :=
  if a.width = b.height then
    let columns := b.transpose.rows
    .ok {
      width := columns.length
      rows := a.rows.map fun row => columns.map (rowTimes row)
      width_of_mem := by simp }
  else .error (.shape a.height a.width b.height)

end Mat

end Stepwise
