import Stepwise.Linear.Matrix

/-!
# Central differences

A derivative along an axis is approximated by the difference quotient between a
point one step forward and a point one step back. `Stepwise.centralGradient` does so
for a function with values in the numbers, one component after the other, and
`Stepwise.centralJacobian` for a vector field, one column after the other; applied to
a gradient, the latter gives a Hessian.

There is one point for all axes. Along each of them its component is moved and, when both
values are known, put back (`Stepwise.movedSides`). So the next axis finds the point as it was
given, and every quotient is that of its own axis (`Stepwise.alongAxes_eq`).
-/

namespace Stepwise

variable {R α β : Type} [Scalar R]

open Scalar

/-- The values of `f` one step forward and one step back along axis `i`, where the
component of `x` is `origin`. -/
def twoSided (f : Vec R → Except Fault α) (x : Vec R) (h : R) (i : Nat) (origin : R) :
    Except Fault (α × α) := do
  let forward ← f (x.replace i (origin + h))
  let backward ← f (x.replace i (origin - h))
  return (forward, backward)

/-- The same values, from a point whose component is moved and put back. -/
def movedSides (f : Vec R → Except Fault α) (h : R) (i : Nat) :
    StateT (Vec R) (Except Fault) (α × α) := do
  let origin ← (← get).component i
  modify (·.replace i (origin + h))
  let forward ← f (← get)
  modify (·.replace i (origin - h))
  let backward ← f (← get)
  modify (·.replace i origin)
  return (forward, backward)

/-- A quotient of the two sides for every axis through `x`. -/
def alongAxes (f : Vec R → Except Fault α) (h : R) (quotient : α → α → Except Fault β)
    (x : Vec R) : Except Fault (List β) :=
  let quotients : StateT (Vec R) (Except Fault) (List β) :=
    (List.range x.length).mapM fun i => do
      let (forward, backward) ← movedSides f h i
      quotient forward backward
  quotients.run' x

/-- The gradient of `f` at `x` by central differences with step `h`. -/
def centralGradient (f : Vec R → Except Fault R) (h : R) : Vec R → Except Fault (Vec R) :=
  alongAxes f h fun forward backward => return (forward - backward) / (ofNat 2 * h)

/-- The derivative of the field `g` at `x` by central differences with step `h`; the
field has to have as many components as `x`. -/
def centralJacobian (g : Vec R → Except Fault (Vec R)) (h : R) (x : Vec R) :
    Except Fault (Mat R) := do
  let column (forward backward : Vec R) : Except Fault (Vec R) := do
    let column := (← Vec.sub forward backward).divide (ofNat 2 * h)
    if column.length = x.length then return column
    else throw (.lengths column.length x.length)
  let columns ← alongAxes g h column x
  return Mat.ofColumns x.length columns

/-! ### The point that is moved -/

/-- **The point is put back**: the sides along an axis are those of the point as it is, and it is
left so. -/
theorem run_movedSides (f : Vec R → Except Fault α) (h : R) {x : Vec R} {i : Nat} {origin : R}
    (horigin : x[i]? = some origin) :
    (movedSides f h i).run x = (fun sides => (sides, x)) <$> twoSided f x h i origin := by
  have hcomponent : x.component i = pure origin := by
    rw [Vec.component, horigin]
    rfl
  have hback : List.set x i origin = x := by
    obtain ⟨hi, rfl⟩ := List.getElem?_eq_some_iff.mp horigin
    exact List.set_getElem_self hi
  simp [movedSides, twoSided, hcomponent, Vec.replace, hback]

/-- Parts that leave the state as it is can be had one by one. -/
theorem run_mapM {σ ε γ : Type} {g : γ → StateT σ (Except ε) β} {r : γ → Except ε β} {x : σ}
    {l : List γ} (hg : ∀ a ∈ l, (g a).run x = (fun b => (b, x)) <$> r a) :
    (l.mapM g).run x = (fun bs => (bs, x)) <$> l.mapM r := by
  induction l with
  | nil => rfl
  | cons a l ih =>
    have hrest := ih fun c hc => hg c (List.mem_cons_of_mem a hc)
    simp [List.mapM_cons, hg a List.mem_cons_self, hrest]

/-- **All axes are asked about the same point.** -/
theorem alongAxes_eq (f : Vec R → Except Fault α) (h : R) (quotient : α → α → Except Fault β)
    (x : Vec R) :
    alongAxes f h quotient x =
      x.zipIdx.mapM (fun (origin, i) => do
        let (forward, backward) ← twoSided f x h i origin
        quotient forward backward) := by
  have hrange : List.range x.length = x.zipIdx.map Prod.snd := by
    rw [List.zipIdx_map_snd, List.range_eq_range']
  have hleft (axis : R × Nat) (hmem : axis ∈ x.zipIdx) :
      (do
        let (forward, backward) ← movedSides f h axis.2
        quotient forward backward : StateT (Vec R) (Except Fault) β).run x =
      (fun quotient => (quotient, x)) <$> (do
        let (forward, backward) ← twoSided f x h axis.2 axis.1
        quotient forward backward) := by
    simp [run_movedSides f h (List.mem_zipIdx_iff_getElem?.mp hmem)]
  rw [alongAxes, hrange, List.mapM_map]
  simp only [StateT.run'_eq, Function.comp_def, run_mapM hleft]
  simp

end Stepwise
