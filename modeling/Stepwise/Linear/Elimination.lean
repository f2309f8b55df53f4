import Stepwise.Linear.Matrix

/-!
# Systems of linear equations

A square system is solved by elimination. The equation with the largest leading
coefficient moves to the front, trading places with the one that stood there; a
multiple of it is taken from every other equation, so that their leading
coefficients vanish; the smaller system is solved; and the leading unknown is what
the front equation then leaves for it. If even the largest leading coefficient is
zero the system is singular and there is no solution.

Among equal leading coefficients the first equation wins, and an undefined
coefficient is never larger than another.
-/

namespace Stepwise

/-- An equation between unknowns: their coefficients, and the value of the whole. -/
structure Equation (R : Type) where
  /-- The coefficients of the unknowns that are left. -/
  coefficients : Vec R
  /-- The right-hand side. -/
  value : R

namespace Equation

variable {R : Type} [Scalar R]

/-- The coefficient of the first unknown. -/
def leading (e : Equation R) : R := e.coefficients.headD (Scalar.ofNat 0)

/-! ### The pivot -/

/-- The place of the largest leading coefficient: `best` is the place of the largest
one among those seen, `size` its size, and `here` the place to look at next. -/
def pivotFrom (best : Nat) (size : R) (here : Nat) : List (Equation R) → Nat
  | [] => best
  | e :: rest =>
    if size < Scalar.abs e.leading then pivotFrom here (Scalar.abs e.leading) (here + 1) rest
    else pivotFrom best size (here + 1) rest

/-- The system with the equation of the largest leading coefficient first. -/
def pivotFirst : List (Equation R) → List (Equation R)
  | [] => []
  | e :: rest =>
    let place := pivotFrom 0 (Scalar.abs e.leading) 1 rest
    match (e :: rest)[place]? with
    | none => e :: rest
    | some pivot => ((e :: rest).set place e).set 0 pivot

/-! ### Elimination and substitution -/

/-- `e` without its first unknown, once `multiple` times the front equation, with
coefficients `row` and right-hand side `value`, is taken from it. -/
def reduce (row : Vec R) (value multiple : R) (e : Equation R) : Equation R where
  coefficients := List.zipWith (fun p c => (-p) * multiple + c) row e.coefficients.tail
  value := (-value) * multiple + e.value

/-- What an equation leaves for its first unknown once the others are known, the last
of them taken out first. -/
def remainder (row : Vec R) (unknowns : Vec R) (value : R) : R :=
  (List.zip row unknowns).foldr (fun p left => (-p.2) * p.1 + left) value

/-- The solution of a system in `n` unknowns, if it is not singular. -/
def solve : (n : Nat) → List (Equation R) → Option (Vec R)
  | 0, _ => some []
  | n + 1, system =>
    match pivotFirst system with
    | [] => none
    | front :: others =>
      let pivot := front.leading
      let row := front.coefficients.tail
      if pivot == Scalar.ofNat 0 then none
      else
        let inverse := Scalar.ofNat 1 / pivot
        let reduced := others.map fun e => reduce row front.value (e.leading * inverse) e
        match solve n reduced with
        | none => none
        | some unknowns => some (remainder row unknowns front.value / pivot :: unknowns)

end Equation

namespace Mat

variable {R : Type} [Scalar R]

/-- The vector that a square matrix takes to `b`, if the matrix is not singular. -/
def solve (m : Mat R) (b : Vec R) : Except Fault (Option (Vec R)) :=
  if m.height = b.length ∧ m.width = m.height then
    .ok (Equation.solve m.height (List.zipWith Equation.mk m.rows b))
  else .error (.shape m.height m.width b.length)

end Mat

end Stepwise
