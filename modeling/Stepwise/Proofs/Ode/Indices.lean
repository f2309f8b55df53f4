import Stepwise.Proofs.Ode.Sizes
import Stepwise.Proofs.Descent.Locality

/-!
# Runge–Kutta steps by index

The formulas of a Runge–Kutta scheme are read here number by number: a coefficient is fetched
from its row and column, a node or a weight from its place, a stage from its block of the
stacked vector, and whatever is not there is a fault (`Stepwise.Ode.Tableau.Indexed.step`).
Elsewhere the same formulas pair lists with each other, where nothing can be missing because
the shorter list decides.

The two are one (`Stepwise.Ode.Tableau.Indexed.step_eq`): the shape of a tableau puts every
index that the formulas use in range, and the minimiser asks for the residual only at vectors
that have all the blocks.
-/

namespace Stepwise.Ode

variable {R : Type}

/-! ### Lists and places -/

section Lists

variable {α β ε : Type}

/-- What is at a place of a list is there. -/
theorem component_of_lt {l : Vec α} {i : Nat} (h : i < l.length) (d : α) :
    Vec.component l i = .ok (l.getD i d) := by
  simp [Vec.component, List.getD_eq_getElem?_getD, h]

/-- A list of known length is what is at its places. -/
theorem eq_map_range {l : List α} {n : Nat} (h : l.length = n) (d : α) :
    l = (List.range n).map (l.getD · d) := by
  subst h
  refine List.ext_getElem (by simp) fun i hi _ => ?_
  simp [List.getD_eq_getElem?_getD, hi]

/-- A list with the numbers of its places. -/
theorem zipIdx_eq_map_range {l : List α} {n : Nat} (h : l.length = n) (d : α) :
    l.zipIdx = (List.range n).map fun i => (l.getD i d, i) := by
  subst h
  refine List.ext_getElem (by simp) fun i hi hrange => ?_
  rw [List.length_map, List.length_range] at hrange
  simp [List.getD_eq_getElem?_getD, hrange]

/-- Two lists side by side, as far as the second goes. -/
theorem zip_eq_map_range {l : List α} {l' : List β} {n : Nat} (hl : n ≤ l.length)
    (hl' : l'.length = n) (d : α) (d' : β) :
    l.zip l' = (List.range n).map fun i => (l.getD i d, l'.getD i d') := by
  subst hl'
  refine List.ext_getElem (by simp [hl]) fun i hi hrange => ?_
  rw [List.length_map, List.length_range] at hrange
  have hlt : i < l.length := by omega
  simp [List.getD_eq_getElem?_getD, hrange, hlt]

/-- What is built up from the same parts is the same. -/
theorem foldlM_congr {f g : β → α → Except ε β} {l : List α}
    (h : ∀ a ∈ l, ∀ b, f b a = g b a) (b : β) : l.foldlM f b = l.foldlM g b := by
  induction l generalizing b with
  | nil => rfl
  | cons a l ih =>
    rw [List.foldlM_cons, List.foldlM_cons, h a List.mem_cons_self]
    exact congrArg _ (funext fun c => ih (fun d hd => h d (List.mem_cons_of_mem a hd)) c)

/-- The parts only have to be the same at what has been built up so far. -/
theorem foldlM_range_congr {f g : β → Nat → Except ε β} {P : Nat → β → Prop} {n : Nat} {b : β}
    (hb : P 0 b) (hsame : ∀ i < n, ∀ b, P i b → f b i = g b i)
    (hkeep : ∀ i < n, ∀ b, P i b → Sound (fun _ => True) (P (i + 1)) (g b i)) :
    (List.range n).foldlM f b = (List.range n).foldlM g b ∧
      Sound (fun _ => True) (P n) ((List.range n).foldlM g b) := by
  induction n with
  | zero => exact ⟨rfl, hb⟩
  | succ n ih =>
    obtain ⟨hfold, hbuilt⟩ := ih (fun i hi => hsame i (by omega)) fun i hi => hkeep i (by omega)
    simp only [List.range_succ, List.foldlM_append, hfold, List.foldlM_cons, List.foldlM_nil,
      bind_pure]
    exact ⟨hbuilt.bind_congr fun c hc => hsame n n.lt_succ_self c hc,
      hbuilt.bind fun c hc => hkeep n n.lt_succ_self c hc⟩

theorem allM_of_forall {f : α → Except ε Bool} {g : α → Bool} {l : List α}
    (h : ∀ a ∈ l, f a = .ok (g a)) : l.allM f = .ok (l.all g) := by
  induction l with
  | nil => rfl
  | cons a l ih =>
    rw [List.allM, h a List.mem_cons_self, ok_bind, List.all_cons,
      ih fun b hb => h b (List.mem_cons_of_mem a hb)]
    cases g a <;> rfl

end Lists

namespace Tableau.Indexed

open Scalar

/-! ### The formulas -/

/-- The coefficient in a row and a column. -/
def coefficient (s : Tableau R) (i j : Nat) : Except Fault R := do
  Vec.component (← Vec.component s.a.rows i) j

/-- The components from `start` on, `m` of them. -/
def slice (start m : Nat) (u : Vec R) : Except Fault (Vec R) :=
  if start + m ≤ u.length then .ok ((u.drop start).take m)
  else .error (.component (start + m) u.length)

/-- A vector with some components from `start` on replaced by those of another. -/
def place (start : Nat) (v u : Vec R) : Except Fault (Vec R) :=
  if start + v.length ≤ u.length then .ok (u.take start ++ v ++ u.drop (start + v.length))
  else .error (.component (start + v.length) u.length)

variable [Scalar R]

/-- Whether the stages can be computed one after the other. -/
def isExplicit (s : Tableau R) : Except Fault Bool := do
  let lower ← (List.range s.stages).allM fun i =>
    (List.range' i (s.stages - i)).allM fun j => do return (← coefficient s i j) == ofNat 0
  if lower then return (← Vec.component s.c 0) == ofNat 0 else return false

/-- The next state, from stages computed one after the other. -/
def explicitNext (s : Tableau R) (f : Field R) (last : Sample R) (k : R) :
    Except Fault (Vec R) := do
  let stages ← (List.range s.stages).foldlM (fun stages i => do
    let point ← stages.zipIdx.foldlM (fun point (stage, j) => do
      point.add (stage.scale (k * (← coefficient s i j)))) last.state
    let stage ← f point (last.time + (← Vec.component s.c i) * k)
    return stages ++ [stage]) []
  addStages k last.state s.b stages

/-- The sum of the squares of all differences that the equations leave. -/
def residual (s : Tableau R) (f : Field R) (last : Sample R) (k : R) (u : Vec R) :
    Except Fault R := do
  let m := last.state.length
  let change ← (← slice (s.stages * m) m u).sub last.state
  let rest ← (List.range s.stages).foldlM (fun rest i => do
    rest.sub ((← slice (i * m) m u).scale (k * (← Vec.component s.b i)))) change
  (List.range s.stages).foldlM (fun sum i => do
    let point ← (List.range s.stages).foldlM (fun point j => do
      point.add ((← slice (j * m) m u).scale (k * (← coefficient s i j)))) last.state
    let slope ← f point (last.time + (← Vec.component s.c i) * k)
    return sum + (← slope.sub (← slice (i * m) m u)).normSquared) rest.normSquared

/-- The step from a sample. -/
def step (s : Tableau R) (f : Field R) (last : Sample R) (k : R) (m : Descent.Minimiser R) :
    Step R :=
  match isExplicit s with
  | .error e => .explicit (.error e)
  | .ok true => .explicit (explicitNext s f last k)
  | .ok false =>
    let d := last.state.length
    match place (s.stages * d) last.state (Vec.zero ((s.stages + 1) * d)) with
    | .error e => .explicit (.error e)
    | .ok start =>
      let report := (m.withObjective { value := residual s f last k }).run Observer.silent () start
      ⟨report.journal, do Failure.ofFault (slice (s.stages * d) d (← report.outcome).point)⟩

/-! ### What is in range -/

section Ranges

variable (s : Tableau R) {i j : Nat}

omit [Scalar R] in
theorem length_rows : s.a.rows.length = s.stages := s.height_a

omit [Scalar R] in
theorem length_nodes : s.c.length = s.stages := s.length_c

omit [Scalar R] in
theorem length_weights : s.b.length = s.stages := rfl

theorem component_node (hi : i < s.stages) :
    Vec.component s.c i = .ok (s.c.getD i (ofNat 0)) :=
  component_of_lt (hi.trans_eq (length_nodes s).symm) _

theorem component_weight (hi : i < s.stages) :
    Vec.component s.b i = .ok (s.b.getD i (ofNat 0)) :=
  component_of_lt hi _

omit [Scalar R] in
/-- There is a coefficient in every row for every stage. -/
theorem length_row (hi : i < s.stages) : (s.a.rows.getD i []).length = s.stages := by
  have hlt : i < s.a.rows.length := hi.trans_eq (length_rows s).symm
  rw [List.getD_eq_getElem?_getD, List.getElem?_eq_getElem hlt, Option.getD_some,
    s.a.width_of_mem _ (List.getElem_mem hlt), s.width_a]
  rfl

theorem coefficient_eq (hi : i < s.stages) (hj : j < s.stages) :
    coefficient s i j = .ok (s.a.entry i j) := by
  rw [coefficient, component_of_lt (hi.trans_eq (length_rows s).symm) [], ok_bind,
    component_of_lt (hj.trans_eq (length_row s hi).symm) (ofNat 0)]
  rfl

/-- A row is its coefficients. -/
theorem row_eq (hi : i < s.stages) :
    s.a.rows.getD i [] = (List.range s.stages).map (s.a.entry i) :=
  eq_map_range (length_row s hi) (ofNat 0)

omit [Scalar R] in
/-- A block that a vector has is a slice of it. -/
theorem slice_eq {m : Nat} {u : Vec R} (h : (i + 1) * m ≤ u.length) :
    slice (i * m) m u = .ok (block m i u) := by
  rw [Nat.add_mul, Nat.one_mul] at h
  rw [slice, if_pos h, block]

end Ranges

/-! ### The same steps -/

section Steps

variable (s : Tableau R)

theorem isExplicit_eq : isExplicit s = .ok s.isExplicit := by
  -- The coefficients from the diagonal on are what is left of the row there.
  have hrow : ∀ i ∈ List.range s.stages,
      ((List.range' i (s.stages - i)).allM fun j => do
        return (← coefficient s i j) == ofNat 0) = .ok (zeroFrom (s.a.rows.getD i []) i) := by
    intro i hi
    have hi := List.mem_range.mp hi
    rw [allM_of_forall (g := fun j => s.a.entry i j == ofNat 0), zeroFrom, row_eq s hi,
      ← List.map_drop, List.range_eq_range', List.drop_range', List.all_map, Nat.zero_add,
      Nat.mul_one]
    · rfl
    · intro j hj
      obtain ⟨-, hj⟩ := List.mem_range'_1.mp hj
      rw [coefficient_eq s hi (by omega)]
      rfl
  have hpos : 0 < s.stages := List.length_pos_iff.mpr s.b_ne_nil
  have hnode : s.c.headD (ofNat 0) = s.c.getD 0 (ofNat 0) := by
    rw [List.headD_eq_head?_getD, List.getD_eq_getElem?_getD, List.head?_eq_getElem?]
  rw [isExplicit, allM_of_forall hrow, ok_bind, component_node s hpos, Tableau.isExplicit, hnode,
    zipIdx_eq_map_range (length_rows s) [], List.all_map]
  cases hlower : (List.range s.stages).all fun i => zeroFrom (s.a.rows.getD i []) i with
  | true => exact congrArg Except.ok (congrArg (· && _) hlower.symm)
  | false => exact congrArg Except.ok (congrArg (· && _) hlower.symm)

theorem explicitNext_eq (f : Field R) (last : Sample R) (k : R) :
    explicitNext s f last k = s.explicitNext f last k := by
  -- As many stages as have been computed are there when the next one is.
  have hstages : (List.range s.stages).foldlM (fun (stages : List (Vec R)) i => do
        let point ← stages.zipIdx.foldlM (fun point (stage, j) => do
          point.add (stage.scale (k * (← coefficient s i j)))) last.state
        let stage ← f point (last.time + (← Vec.component s.c i) * k)
        return stages ++ [stage]) [] = s.computeStages f last k := by
    rw [computeStages, zip_eq_map_range (length_rows s).ge (length_nodes s) [] (ofNat 0), List.foldlM_map]
    refine (foldlM_range_congr (P := fun i stages => stages.length = i) rfl
      (fun i hi stages hlength => ?_) fun i hi stages hlength => ?_).1
    · have hpoint : stages.zipIdx.foldlM (fun point (stage, j) => do
            point.add (stage.scale (k * (← coefficient s i j)))) last.state =
          addStages k last.state (s.a.rows.getD i []) stages := by
        rw [addStages, zipIdx_eq_map_range hlength [], List.foldlM_map,
          zip_eq_map_range ((length_row s hi).ge.trans' hi.le) hlength (ofNat 0) [],
          List.foldlM_map]
        refine foldlM_congr (fun j hj point => ?_) _
        dsimp only
        rw [coefficient_eq s hi ((List.mem_range.mp hj).trans hi)]
        rfl
      dsimp only
      rw [hpoint, component_node s hi]
      rfl
    · refine (sound_true _).bind fun _ _ => (sound_true _).bind fun stage _ => ?_
      exact (List.length_append ..).trans (congrArg (· + 1) hlength)
  rw [explicitNext, hstages]
  rfl

theorem residual_eq (f : Field R) (last : Sample R) (k : R) {u : Vec R}
    (hu : u.length = (s.stages + 1) * last.state.length) :
    residual s f last k u = s.residual f last k u := by
  have hslice : ∀ i ≤ s.stages, slice (i * last.state.length) last.state.length u =
      .ok (block last.state.length i u) :=
    fun i hi => slice_eq (hu ▸ Nat.mul_le_mul_right _ (Nat.succ_le_succ hi))
  -- The lists that are paired with each other have an entry for every stage.
  have hweights : s.b.zip ((List.range s.stages).map fun i => block last.state.length i u) =
      (List.range s.stages).map fun i => (s.b.getD i (ofNat 0), block last.state.length i u) := by
    rw [← List.zip_map', ← eq_map_range (length_weights s)]
  have hrows : (s.a.rows.zip s.c).zip
        ((List.range s.stages).map fun i => block last.state.length i u) =
      (List.range s.stages).map fun i =>
        ((s.a.rows.getD i [], s.c.getD i (ofNat 0)), block last.state.length i u) := by
    rw [zip_eq_map_range (length_rows s).ge (length_nodes s) [] (ofNat 0), List.zip_map']
  have hpoint : ∀ i < s.stages, (List.range s.stages).foldlM (fun point j => do
        point.add ((← slice (j * last.state.length) last.state.length u).scale
          (k * (← coefficient s i j)))) last.state =
      addStages k last.state (s.a.rows.getD i [])
        ((List.range s.stages).map fun i => block last.state.length i u) := by
    intro i hi
    rw [addStages, row_eq s hi, List.zip_map', List.foldlM_map]
    refine foldlM_congr (fun j hj point => ?_) _
    have hj := List.mem_range.mp hj
    rw [hslice j hj.le, coefficient_eq s hi hj]
    rfl
  rw [residual, Tableau.residual, Tableau.nextResidual, hweights, hrows, hslice _ le_rfl]
  simp only [ok_bind, bind_assoc, pure_bind, List.foldlM_map]
  refine congrArg _ (funext fun change => ?_)
  have hrest : (List.range s.stages).foldlM (fun (rest : Vec R) i => do
        rest.sub ((← slice (i * last.state.length) last.state.length u).scale
          (k * (← Vec.component s.b i)))) change =
      (List.range s.stages).foldlM (fun rest i =>
        rest.sub ((block last.state.length i u).scale (k * s.b.getD i (ofNat 0)))) change := by
    refine foldlM_congr (fun i hi rest => ?_) _
    have hi := List.mem_range.mp hi
    rw [hslice i hi.le, component_weight s hi]
    rfl
  rw [hrest]
  refine congrArg _ (funext fun rest => foldlM_congr (fun i hi sum => ?_) _)
  have hi := List.mem_range.mp hi
  rw [hpoint i hi, component_node s hi, hslice i hi.le]
  simp only [stageResidual, ok_bind, bind_assoc, pure_bind]

/-- The last state fits behind zeros for all stages. -/
theorem place_eq (last : Sample R) :
    place (s.stages * last.state.length) last.state
      (Vec.zero ((s.stages + 1) * last.state.length)) = .ok (s.stackedStart last) := by
  have hroom : s.stages * last.state.length + last.state.length =
      (s.stages + 1) * last.state.length := by rw [Nat.add_mul, Nat.one_mul]
  rw [place, if_pos (by rw [Vec.length_zero, hroom]), Vec.zero, List.take_replicate,
    List.drop_replicate, hroom, Nat.sub_self, List.replicate_zero, List.append_nil,
    Nat.min_eq_left (by omega), stackedStart, Vec.zero]

/-- **A step by index is the step**: no index is out of range. -/
theorem step_eq {f : Field R} (hf : Keeps f) (last : Sample R) (k : R) (m : Descent.Minimiser R) :
    step s f last k m = s.step f last k m := by
  cases hexplicit : s.isExplicit with
  | true => simp only [step, isExplicit_eq, hexplicit, explicitNext_eq, Tableau.step, if_true]
  | false =>
    have hdefined : ∀ u : Vec R, u.length = (s.stages + 1) * last.state.length →
        Defined (s.residual f last k u) := fun u hu => defined_residual hf s last k hu
    have hstart := length_stackedStart s last
    have hfound := faultless_minimise hdefined m hstart
    -- The minimiser cannot tell the two residuals apart.
    have hrun := Descent.run_local (fits_residual hdefined)
      (fun u hu => residual_eq s f last k hu) m Observer.silent () hstart
    simp only [step, isExplicit_eq, hexplicit, place_eq, hrun, Tableau.step, Step.implicit]
    refine congrArg (Step.mk _) ?_
    cases houtcome : ((m.withObjective { value := s.residual f last k }).run Observer.silent ()
        (s.stackedStart last)).outcome with
    | error e => rfl
    | ok sol =>
      rw [houtcome] at hfound
      rw [ok_bind, slice_eq hfound.ge]
      rfl

end Steps

end Tableau.Indexed

end Stepwise.Ode
