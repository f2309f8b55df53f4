import Stepwise.Ode.Error
import Stepwise.Ode.Step

/-!
# Runge–Kutta schemes

A Runge–Kutta scheme evaluates slopes inside the step, its stages, and advances by a
weighted sum of them. With stages `K₁`, …, `Kₛ`, from the state `v` at time `t`,

`Kᵢ = f(v + k (aᵢ₁ K₁ + … + aᵢₛ Kₛ), t + cᵢ k)`, and the next state is
`v + k (b₁ K₁ + … + bₛ Kₛ)`.

The coefficients form a tableau. It is explicit if no stage refers to itself or to a
later one and the first stage is taken at the last sample; the stages are then computed
one after the other. Otherwise stages and next state are found together: they are
stacked into one vector, which starts from zero stages and the last state, and the sum
of the squares of all the differences that the equations leave is minimised.
-/

namespace Stepwise.Ode

/-- The coefficients of a Runge–Kutta scheme. -/
structure Tableau (R : Type) where
  /-- The coefficients of stages in stages. -/
  a : Mat R
  /-- The weights of the stages. -/
  b : Vec R
  /-- The nodes: how far into the step the stages are taken. -/
  c : Vec R
  /-- There is a stage. -/
  b_ne_nil : b ≠ []
  /-- There is a row for every stage. -/
  height_a : a.height = b.length
  /-- There is a column for every stage. -/
  width_a : a.width = b.length
  /-- There is a node for every stage. -/
  length_c : c.length = b.length

namespace Tableau

/-- Runge–Kutta schemes with names. -/
inductive Preset where
  /-- Heun's scheme with three stages. -/
  | heunThirdOrder
  /-- The classical scheme with four stages. -/
  | classicalFourthOrder
  deriving Repr, DecidableEq

instance : Named Preset where
  all := [.heunThirdOrder, .classicalFourthOrder]
  name
    | .heunThirdOrder => "HeunThirdOrder"
    | .classicalFourthOrder => "ClassicalFourthOrder"
  title
    | .heunThirdOrder => "Heun's third-order method"
    | .classicalFourthOrder => "classical fourth-order Runge–Kutta"

variable {R : Type}

/-- The number of stages. -/
def stages (s : Tableau R) : Nat := s.b.length

variable [Scalar R]

open Scalar

/-- The tableau with given coefficients, if they make one. -/
def make (a : Mat R) (b c : Vec R) : Except SchemeError (Tableau R) :=
  if hb : b = [] then .error .noStages
  else if ha : a.height = b.length ∧ a.width = b.length then
    if hc : c.length = b.length then
      if a.rows.all Vec.isFinite && Vec.isFinite b && Vec.isFinite c then
        .ok ⟨a, b, c, hb, ha.1, ha.2, hc⟩
      else .error .nonFinite
    else .error (.nodeCount b.length c.length)
  else .error (.matrixShape b.length a.height a.width)

/-- The tableau with a given name. -/
def ofPreset : Preset → Tableau R
  | .heunThirdOrder =>
    { a := ⟨3, [[ofNat 0, ofNat 0, ofNat 0], [ratio 1 3, ofNat 0, ofNat 0],
        [ofNat 0, ratio 2 3, ofNat 0]], by simp⟩
      b := [ratio 1 4, ofNat 0, ratio 3 4]
      c := [ofNat 0, ratio 1 3, ratio 2 3]
      b_ne_nil := by simp
      height_a := rfl
      width_a := rfl
      length_c := rfl }
  | .classicalFourthOrder =>
    { a := ⟨4, [[ofNat 0, ofNat 0, ofNat 0, ofNat 0], [ratio 1 2, ofNat 0, ofNat 0, ofNat 0],
        [ofNat 0, ratio 1 2, ofNat 0, ofNat 0], [ofNat 0, ofNat 0, ofNat 1, ofNat 0]], by simp⟩
      b := [ratio 1 6, ratio 1 3, ratio 1 3, ratio 1 6]
      c := [ofNat 0, ratio 1 2, ratio 1 2, ofNat 1]
      b_ne_nil := by simp
      height_a := rfl
      width_a := rfl
      length_c := rfl }

/-- Whether a row has only zeros from place `i` on. -/
def zeroFrom (row : Vec R) (i : Nat) : Bool := (row.drop i).all (· == ofNat 0)

/-- Whether the stages can be computed one after the other. -/
def isExplicit (s : Tableau R) : Bool :=
  (s.a.rows.zipIdx.all fun (row, i) => zeroFrom row i) && s.c.headD (ofNat 0) == ofNat 0

/-- `sum` with multiples of stages added, the factors being `k` times the given
coefficients. -/
def addStages (k : R) (sum : Vec R) (coefficients : List R) (stages : List (Vec R)) :
    Except Fault (Vec R) :=
  (coefficients.zip stages).foldlM (fun sum (a, stage) => sum.add (stage.scale (k * a))) sum

/-! ### Explicit steps -/

/-- The stages, each computed from those before it. -/
def computeStages (s : Tableau R) (f : Field R) (last : Sample R) (k : R) :
    Except Fault (List (Vec R)) :=
  (s.a.rows.zip s.c).foldlM (fun stages (row, node) => do
    let point ← addStages k last.state row stages
    let stage ← f point (last.time + node * k)
    return stages ++ [stage]) []

/-- The next state, from stages computed one after the other. -/
def explicitNext (s : Tableau R) (f : Field R) (last : Sample R) (k : R) :
    Except Fault (Vec R) := do
  addStages k last.state s.b (← s.computeStages f last k)

/-! ### Implicit steps -/

/-- Block number `i` of a vector made of blocks of size `m`. -/
def block (m i : Nat) (u : Vec R) : Vec R := (u.drop (i * m)).take m

/-- The square of the difference that the equation of one stage leaves. -/
def stageResidual (f : Field R) (last : Sample R) (k : R) (stages : List (Vec R)) (row : Vec R)
    (node : R) (stage : Vec R) : Except Fault R := do
  let point ← addStages k last.state row stages
  let slope ← f point (last.time + node * k)
  return (← slope.sub stage).normSquared

/-- The square of the difference that the equation of the next state leaves. -/
def nextResidual (s : Tableau R) (last : Sample R) (k : R) (stages : List (Vec R)) (next : Vec R) :
    Except Fault R := do
  let change ← next.sub last.state
  let rest ← (s.b.zip stages).foldlM
    (fun rest (b, stage) => rest.sub (stage.scale (k * b))) change
  return rest.normSquared

/-- The sum of the squares of all differences, for stages and next state stacked into one
vector. -/
def residual (s : Tableau R) (f : Field R) (last : Sample R) (k : R) (u : Vec R) :
    Except Fault R := do
  let m := last.state.length
  let stages := (List.range s.stages).map fun i => block m i u
  let first ← s.nextResidual last k stages (block m s.stages u)
  ((s.a.rows.zip s.c).zip stages).foldlM
    (fun sum ((row, node), stage) => do
      return sum + (← stageResidual f last k stages row node stage)) first

/-- Zero stages and the last state, stacked. -/
def stackedStart (s : Tableau R) (last : Sample R) : Vec R :=
  Vec.zero (s.stages * last.state.length) ++ last.state

/-- The step from a sample. -/
def step (s : Tableau R) (f : Field R) (last : Sample R) (k : R) (m : Descent.Minimiser R) :
    Step R :=
  if s.isExplicit then .explicit (s.explicitNext f last k)
  else .implicit m (s.residual f last k) (s.stackedStart last)
    (block last.state.length s.stages)

end Tableau

end Stepwise.Ode
