import Mathlib.Data.List.GetD
import Mathlib.LinearAlgebra.Matrix.DotProduct
import Mathlib.Tactic.Ring
import Stepwise.Ode.Tableau
import Stepwise.Proofs.Linear.Vectors

/-!
# Stages and the residual of a Runge–Kutta scheme

A Runge–Kutta step is written down twice: as a residual of stages and next state in one
vector, for a minimiser to look at, and as stages that are computed one after the other, where
that is possible. In exact arithmetic both say the same.

The residual is the sum of the squares of what the equations leave
(`Stepwise.Ode.residual_stack`), so it vanishes just where they hold. In an explicit scheme
every equation has only earlier stages on its right-hand side, and to compute them one after
the other is to solve the equations from the first on, each in the only way
(`Stepwise.Ode.stages_iff`). Together they make `Stepwise.Ode.residual_eq_zero_iff`.

Sums of stages are read off two lists, coefficients and stages, of which the shorter one
decides (`Stepwise.Ode.combination`). So the sum over all stages, with zeros for the later
ones, is the sum over the stages that are there already (`Stepwise.Ode.combination_take`).
-/

namespace Stepwise.Ode

open Matrix

/-! ### Sums of stages -/

section Sums

variable {m n : ℕ}

/-- The sum of stages times coefficients; if one list is longer, its end is left out. -/
noncomputable def combination (coefficients : List ℝ) (stages : List (Fin m → ℝ)) : Fin m → ℝ :=
  (List.zipWith (· • ·) coefficients stages).sum

theorem combination_cons (a : ℝ) (coefficients : List ℝ) (K : Fin m → ℝ)
    (stages : List (Fin m → ℝ)) :
    combination (a :: coefficients) (K :: stages) = a • K + combination coefficients stages := by
  rw [combination, List.zipWith_cons_cons, List.sum_cons, combination]

theorem combination_ofFn {coefficients : List ℝ} (h : coefficients.length = n)
    (K : Fin n → Fin m → ℝ) :
    combination coefficients (List.ofFn K) = ∑ j : Fin n, coefficients.getD j 0 • K j := by
  have hzip : List.zipWith (· • ·) coefficients (List.ofFn K) =
      List.ofFn fun j : Fin n => coefficients.getD j 0 • K j := by
    refine List.ext_getElem (by simp [h]) fun j h₁ h₂ => ?_
    rw [List.length_ofFn] at h₂
    simp [List.getElem?_eq_getElem (h ▸ h₂)]
  rw [combination, hzip, List.sum_ofFn]

@[simp] theorem combination_nil_left (stages : List (Fin m → ℝ)) : combination [] stages = 0 := rfl

@[simp] theorem combination_nil_right (coefficients : List ℝ) :
    combination coefficients ([] : List (Fin m → ℝ)) = 0 := by
  rw [combination, List.zipWith_nil_right, List.sum_nil]

/-- Stages whose coefficients are zero may be left out. -/
theorem combination_take {coefficients : List ℝ} {i : ℕ}
    (h : Tableau.zeroFrom coefficients i = true) (stages : List (Fin m → ℝ)) :
    combination coefficients stages = combination coefficients (stages.take i) := by
  induction coefficients generalizing i stages with
  | nil => rfl
  | cons a coefficients ih =>
    cases stages with
    | nil => rw [List.take_nil]
    | cons K stages =>
      cases i with
      | zero =>
        -- All coefficients are zero.
        obtain ⟨ha, hrest⟩ := Bool.and_eq_true_iff.mp h
        have hzero : a = 0 := by simpa using ha
        rw [combination_cons, hzero, zero_smul, zero_add, ih (i := 0) hrest, List.take_zero,
          List.take_zero, combination_nil_right, combination_nil_right]
      | succ i => rw [List.take_succ_cons, combination_cons, combination_cons, ih h]

/-- **To add multiples one after the other is to add their sum**, the multiples being those of what
the coefficients are paired with. -/
theorem foldlM_zip_ofFn {α β : Type} {g : Vec ℝ → ℝ × β → Except Fault (Vec ℝ)} {e : α → β}
    {K : α → Fin m → ℝ} {k : ℝ} {l : List α}
    (hg : ∀ v a, ∀ x ∈ l, g (List.ofFn v) (a, e x) = .ok (List.ofFn (v + (k * a) • K x)))
    (v : Fin m → ℝ) (coefficients : List ℝ) :
    (coefficients.zip (l.map e)).foldlM g (List.ofFn v) =
      .ok (List.ofFn (v + k • combination coefficients (l.map K))) := by
  induction coefficients generalizing v l with
  | nil => simp [pure, Except.pure]
  | cons a coefficients ih =>
    cases l with
    | nil => simp [pure, Except.pure]
    | cons x l =>
      have hrest := ih fun v a y hy => hg v a y (List.mem_cons_of_mem x hy)
      rw [List.map_cons, List.zip_cons_cons, List.foldlM_cons, hg v a x List.mem_cons_self, ok_bind,
        hrest, List.map_cons, combination_cons, smul_add, smul_smul, add_assoc]

/-- Adding stages to a vector adds their sum. -/
theorem addStages_ofFn (k : ℝ) (v : Fin m → ℝ) (coefficients : List ℝ)
    (stages : List (Fin m → ℝ)) :
    Tableau.addStages k (List.ofFn v) coefficients (stages.map List.ofFn) =
      .ok (List.ofFn (v + k • combination coefficients stages)) := by
  have hsum := foldlM_zip_ofFn (K := id) (k := k) (l := stages) (e := List.ofFn)
    (g := fun (sum : Vec ℝ) ((a, stage) : ℝ × Vec ℝ) => sum.add (stage.scale (k * a)))
    (fun v a K _ => by simp) v coefficients
  rwa [List.map_id] at hsum

/-- Taking stages away from a vector takes their sum away. -/
theorem subStages_ofFn (k : ℝ) (v : Fin m → ℝ) (coefficients : List ℝ)
    (stages : List (Fin m → ℝ)) :
    (coefficients.zip (stages.map List.ofFn)).foldlM
        (fun (rest : Vec ℝ) ((b, stage) : ℝ × Vec ℝ) => rest.sub (stage.scale (k * b)))
        (List.ofFn v) =
      .ok (List.ofFn (v - k • combination coefficients stages)) := by
  have hsum := foldlM_zip_ofFn (K := id) (k := -k) (l := stages) (e := List.ofFn)
    (g := fun (rest : Vec ℝ) ((b, stage) : ℝ × Vec ℝ) => rest.sub (stage.scale (k * b)))
    (fun v b K _ => by simp [sub_eq_add_neg]) v coefficients
  rwa [List.map_id, neg_smul, ← sub_eq_add_neg] at hsum

end Sums

/-! ### Blocks -/

section Blocks

variable {m n : ℕ}

/-- Stages and next state in one vector. -/
def stack (stages : List (Fin m → ℝ)) (y : Fin m → ℝ) : Vec ℝ :=
  (stages.map List.ofFn).flatten ++ List.ofFn y

theorem stack_cons (K : Fin m → ℝ) (stages : List (Fin m → ℝ)) (y : Fin m → ℝ) :
    stack (K :: stages) y = List.ofFn K ++ stack stages y := by
  rw [stack, List.map_cons, List.flatten_cons, List.append_assoc, stack]

theorem length_stack (stages : List (Fin m → ℝ)) (y : Fin m → ℝ) :
    (stack stages y).length = (stages.length + 1) * m := by
  induction stages with
  | nil => simp [stack]
  | cons K stages ih =>
    rw [stack_cons, List.length_append, ih, List.length_ofFn, List.length_cons]
    ring

theorem block_zero_append (K : Fin m → ℝ) (rest : Vec ℝ) :
    Tableau.block m 0 (List.ofFn K ++ rest) = List.ofFn K := by
  rw [Tableau.block, Nat.zero_mul, List.drop_zero, List.take_left' List.length_ofFn]

theorem block_succ_append (K : Fin m → ℝ) (rest : Vec ℝ) (i : ℕ) :
    Tableau.block m (i + 1) (List.ofFn K ++ rest) = Tableau.block m i rest := by
  rw [Tableau.block, Tableau.block, Nat.succ_mul, Nat.add_comm, ← List.drop_drop,
    List.drop_left' List.length_ofFn]

/-- The blocks of stacked stages are the stages. -/
theorem blocks_stack (stages : List (Fin m → ℝ)) (y : Fin m → ℝ) :
    (List.range stages.length).map (fun i => Tableau.block m i (stack stages y)) =
      stages.map List.ofFn := by
  induction stages with
  | nil => rfl
  | cons K stages ih =>
    rw [List.length_cons, List.range_succ_eq_map, List.map_cons, List.map_map, List.map_cons, ← ih,
      stack_cons, block_zero_append]
    congr 1
    exact List.map_congr_left fun i _ => block_succ_append K _ i

/-- The block after the stages is the next state. -/
theorem block_stack (stages : List (Fin m → ℝ)) (y : Fin m → ℝ) :
    Tableau.block m stages.length (stack stages y) = List.ofFn y := by
  induction stages with
  | nil => simp [Tableau.block, stack]
  | cons K stages ih => rw [List.length_cons, stack_cons, block_succ_append, ih]

/-- Every vector of the right length is made of stages and a next state. -/
theorem exists_eq_stack {u : Vec ℝ} (h : u.length = (n + 1) * m) :
    ∃ (stages : List (Fin m → ℝ)) (y : Fin m → ℝ), stages.length = n ∧ u = stack stages y := by
  induction n generalizing u with
  | zero =>
    obtain ⟨y, rfl⟩ := Vec.exists_eq_ofFn (h.trans (by rw [Nat.zero_add, Nat.one_mul]))
    exact ⟨[], y, rfl, rfl⟩
  | succ n ih =>
    have hle : m ≤ u.length := by
      rw [h]
      exact Nat.le_mul_of_pos_left m (Nat.succ_pos _)
    obtain ⟨K, hK⟩ := Vec.exists_eq_ofFn (v := u.take m) (by rw [List.length_take, min_eq_left hle])
    obtain ⟨stages, y, hlength, hrest⟩ := ih (u := u.drop m) (by
      rw [List.length_drop, h, Nat.succ_mul, Nat.add_sub_cancel])
    exact ⟨K :: stages, y, by rw [List.length_cons, hlength],
      by rw [stack_cons, ← hK, ← hrest, List.take_append_drop]⟩

end Blocks

/-! ### The equations of a step -/

section Equations

variable {m : ℕ} (s : Tableau ℝ) (slope : (Fin m → ℝ) → ℝ → Fin m → ℝ) (v : Fin m → ℝ) (t k : ℝ)

/-- The slope that a stage should be. -/
noncomputable def stageSlope (K : Fin s.stages → Fin m → ℝ) (i : Fin s.stages) : Fin m → ℝ :=
  slope (v + k • ∑ j : Fin s.stages, s.a.entry i j • K j) (t + s.c.getD i 0 * k)

/-- The state that the stages lead to. -/
noncomputable def nextState (K : Fin s.stages → Fin m → ℝ) : Fin m → ℝ :=
  v + k • ∑ i : Fin s.stages, s.b.getD i 0 • K i

/-- The stages and the next state satisfy the equations of the scheme. -/
structure Solves (K : Fin s.stages → Fin m → ℝ) (y : Fin m → ℝ) : Prop where
  /-- Every stage is the slope that it should be. -/
  stage : ∀ i, K i = stageSlope s slope v t k K i
  /-- The next state is the one that the stages lead to. -/
  next : y = nextState s v k K

variable {s slope v t k} {f : Field ℝ}

theorem length_row (s : Tableau ℝ) (i : Fin s.stages) :
    (s.a.rows.getD i []).length = s.stages := by
  have hi : (i : ℕ) < s.a.rows.length := i.isLt.trans_eq s.height_a.symm
  rw [List.getD_eq_getElem _ _ hi, s.a.width_of_mem _ (List.getElem_mem hi), s.width_a]
  rfl

theorem combination_row (K : Fin s.stages → Fin m → ℝ) (i : Fin s.stages) :
    combination (s.a.rows.getD i []) (List.ofFn K) = ∑ j : Fin s.stages, s.a.entry i j • K j := by
  rw [combination_ofFn (length_row s i) K]
  simp only [Mat.entry, Scalar.ofNat_real, Nat.cast_zero]

/-- The rows, the nodes and the stages, side by side. -/
theorem zip_stages (K : Fin s.stages → Fin m → ℝ) :
    (s.a.rows.zip s.c).zip ((List.ofFn K).map List.ofFn) =
      List.ofFn fun i : Fin s.stages =>
        ((s.a.rows.getD i [], s.c.getD i 0), List.ofFn (K i)) := by
  have hrows : s.a.rows.length = s.stages := s.height_a
  have hc : s.c.length = s.stages := s.length_c
  refine List.ext_getElem (by simp [hrows, hc]) fun i h₁ h₂ => ?_
  rw [List.length_ofFn] at h₂
  simp [List.getElem?_eq_getElem (hrows ▸ h₂), List.getElem?_eq_getElem (hc ▸ h₂)]

/-- The difference that the equation of a stage leaves. -/
theorem stageResidual_ofFn (hf : ∀ u t, f (List.ofFn u) t = .ok (List.ofFn (slope u t)))
    (K : Fin s.stages → Fin m → ℝ) (i : Fin s.stages) :
    Tableau.stageResidual f ⟨List.ofFn v, t⟩ k ((List.ofFn K).map List.ofFn)
        (s.a.rows.getD i []) (s.c.getD i 0) (List.ofFn (K i)) =
      .ok ((stageSlope s slope v t k K i - K i) ⬝ᵥ (stageSlope s slope v t k K i - K i)) := by
  rw [Tableau.stageResidual, addStages_ofFn, ok_bind, hf, ok_bind, Vec.sub_ofFn, ok_bind,
    Vec.normSquared_ofFn, combination_row]
  rfl

/-- The difference that the equation of the next state leaves. -/
theorem nextResidual_ofFn (K : Fin s.stages → Fin m → ℝ) (y : Fin m → ℝ) :
    s.nextResidual ⟨List.ofFn v, t⟩ k ((List.ofFn K).map List.ofFn) (List.ofFn y) =
      .ok ((y - nextState s v k K) ⬝ᵥ (y - nextState s v k K)) := by
  have hnext : y - v - k • combination s.b (List.ofFn K) = y - nextState s v k K := by
    rw [combination_ofFn (show s.b.length = s.stages from rfl) K, nextState, sub_sub]
  rw [Tableau.nextResidual, Vec.sub_ofFn, ok_bind, subStages_ofFn, ok_bind, hnext,
    Vec.normSquared_ofFn]
  rfl

/-- A sum of calculations that have values. -/
theorem foldlM_ofFn {α : Type} {n : ℕ} {g : α → Except Fault ℝ} {F : Fin n → α}
    {value : Fin n → ℝ} (hg : ∀ i, g (F i) = .ok (value i)) (first : ℝ) :
    (List.ofFn F).foldlM (fun sum a => do return sum + (← g a)) first =
      .ok (first + ∑ i, value i) := by
  induction n generalizing first with
  | zero => simp [pure, Except.pure]
  | succ n ih =>
    have hrest := ih (fun i => hg i.succ) (first + value 0)
    rw [List.ofFn_succ, List.foldlM_cons, hg 0, ok_bind, Fin.sum_univ_succ, ← add_assoc]
    exact hrest

/-- **The residual is the sum of the squares of what the equations leave.** -/
theorem residual_stack (hf : ∀ u t, f (List.ofFn u) t = .ok (List.ofFn (slope u t)))
    (K : Fin s.stages → Fin m → ℝ) (y : Fin m → ℝ) :
    s.residual f ⟨List.ofFn v, t⟩ k (stack (List.ofFn K) y) =
      .ok ((y - nextState s v k K) ⬝ᵥ (y - nextState s v k K) +
        ∑ i, (stageSlope s slope v t k K i - K i) ⬝ᵥ (stageSlope s slope v t k K i - K i)) := by
  have hblocks := blocks_stack (List.ofFn K) y
  have hblock := block_stack (List.ofFn K) y
  rw [List.length_ofFn] at hblocks hblock
  rw [Tableau.residual]
  dsimp only
  rw [List.length_ofFn, hblocks, hblock, nextResidual_ofFn, ok_bind, zip_stages]
  exact foldlM_ofFn (fun i => stageResidual_ofFn hf K i) _

/-- The residual is not negative, and it is zero if and only if the equations hold. -/
theorem residual_stack_eq_zero_iff
    (hf : ∀ u t, f (List.ofFn u) t = .ok (List.ofFn (slope u t)))
    (K : Fin s.stages → Fin m → ℝ) (y : Fin m → ℝ) :
    ∃ r, s.residual f ⟨List.ofFn v, t⟩ k (stack (List.ofFn K) y) = .ok r ∧ 0 ≤ r ∧
      (r = 0 ↔ Solves s slope v t k K y) := by
  have hsquare (w : Fin m → ℝ) : 0 ≤ w ⬝ᵥ w :=
    Finset.sum_nonneg fun i _ => mul_self_nonneg (w i)
  have hsum := Finset.sum_nonneg fun i (_ : i ∈ Finset.univ) =>
    hsquare (stageSlope s slope v t k K i - K i)
  refine ⟨_, residual_stack hf K y, add_nonneg (hsquare _) hsum, ?_⟩
  rw [add_eq_zero_iff_of_nonneg (hsquare _) hsum, dotProduct_self_eq_zero, sub_eq_zero,
    Finset.sum_eq_zero_iff_of_nonneg fun i _ => hsquare _]
  simp only [Finset.mem_univ, forall_const, dotProduct_self_eq_zero, sub_eq_zero]
  exact ⟨fun h => ⟨fun i => (h.2 i).symm, h.1⟩, fun h => ⟨h.next, fun i => (h.stage i).symm⟩⟩

end Equations

/-! ### Explicit steps -/

section Explicit

variable {m : ℕ} (s : Tableau ℝ) (slope : (Fin m → ℝ) → ℝ → Fin m → ℝ) (v : Fin m → ℝ) (t k : ℝ)

/-- The first stages, each computed from those before it. -/
noncomputable def stagesUpTo : ℕ → List (Fin m → ℝ)
  | 0 => []
  | i + 1 => stagesUpTo i ++
    [slope (v + k • combination (s.a.rows.getD i []) (stagesUpTo i)) (t + s.c.getD i 0 * k)]

variable {s slope v t k} {f : Field ℝ}

theorem length_stagesUpTo (i : ℕ) : (stagesUpTo s slope v t k i).length = i := by
  induction i with
  | zero => rfl
  | succ i ih => rw [stagesUpTo, List.length_append, ih, List.length_singleton]

/-- Later stages do not change earlier ones. -/
theorem stagesUpTo_take {i n : ℕ} (h : i ≤ n) :
    (stagesUpTo s slope v t k n).take i = stagesUpTo s slope v t k i := by
  induction n with
  | zero =>
    obtain rfl : i = 0 := by omega
    rfl
  | succ n ih =>
    rcases Nat.lt_or_ge n i with hlt | hge
    · obtain rfl : i = n + 1 := by omega
      exact List.take_of_length_le (length_stagesUpTo _).le
    · rw [stagesUpTo, List.take_append_of_le_length (by rwa [length_stagesUpTo]), ih hge]

/-- **The stages are computed one after the other**: they are the slopes at the points that those
before them lead to. -/
theorem computeStages_map {K : ℕ → Fin m → ℝ}
    (hK : ∀ i < s.stages, f (List.ofFn (v + k • combination (s.a.rows.getD i [])
      ((List.range i).map K))) (t + s.c.getD i 0 * k) = .ok (List.ofFn (K i))) :
    s.computeStages f ⟨List.ofFn v, t⟩ k =
      .ok (((List.range s.stages).map K).map List.ofFn) := by
  have hrows : s.a.rows.length = s.stages := s.height_a
  have hnodes : s.c.length = s.stages := s.length_c
  have hzip : (s.a.rows.zip s.c).length = s.stages := by rw [List.length_zip, hrows, hnodes, min_self]
  -- After the first `i` rows the stages up to `i` are there.
  have hprefix (i : ℕ) (hi : i ≤ s.stages) : ((s.a.rows.zip s.c).take i).foldlM
      (fun stages (row, node) => do
        let point ← Tableau.addStages k (List.ofFn v) row stages
        let stage ← f point (t + node * k)
        return stages ++ [stage]) [] = .ok (((List.range i).map K).map List.ofFn) := by
    induction i with
    | zero => rfl
    | succ i ih =>
      have hi' : i < (s.a.rows.zip s.c).length := by omega
      have hstage := hK i hi
      rw [List.getD_eq_getElem _ _ (by omega), List.getD_eq_getElem _ _ (by omega)] at hstage
      rw [List.take_succ_eq_append_getElem hi', List.foldlM_append, ih (by omega), ok_bind,
        List.foldlM_cons, List.getElem_zip]
      dsimp only
      rw [addStages_ofFn, ok_bind, hstage, ok_bind, List.range_succ, List.map_append,
        List.map_append]
      rfl
  have hall := hprefix s.stages le_rfl
  rw [List.take_of_length_le hzip.le] at hall
  exact hall

theorem computeStages_eq (hf : ∀ u t, f (List.ofFn u) t = .ok (List.ofFn (slope u t))) :
    s.computeStages f ⟨List.ofFn v, t⟩ k =
      .ok ((stagesUpTo s slope v t k s.stages).map List.ofFn) := by
  have hmap (i : ℕ) : stagesUpTo s slope v t k i = (List.range i).map fun i =>
      slope (v + k • combination (s.a.rows.getD i []) (stagesUpTo s slope v t k i))
        (t + s.c.getD i 0 * k) := by
    induction i with
    | zero => rfl
    | succ i ih =>
      rw [List.range_succ, List.map_append, ← ih, stagesUpTo]
      rfl
  rw [hmap]
  refine computeStages_map fun i _ => ?_
  rw [← hmap, hf]

/-- The explicit step goes where the stages lead. -/
theorem explicitNext_eq (hf : ∀ u t, f (List.ofFn u) t = .ok (List.ofFn (slope u t))) :
    s.explicitNext f ⟨List.ofFn v, t⟩ k =
      .ok (List.ofFn (v + k • combination s.b (stagesUpTo s slope v t k s.stages))) := by
  rw [Tableau.explicitNext, computeStages_eq hf, ok_bind, addStages_ofFn]

/-- In an explicit scheme a stage refers only to those before it. -/
theorem zeroFrom_of_isExplicit (hexplicit : s.isExplicit = true) (i : Fin s.stages) :
    Tableau.zeroFrom (s.a.rows.getD i []) i = true := by
  have hi : (i : ℕ) < s.a.rows.length := i.isLt.trans_eq s.height_a.symm
  have hrows := List.all_eq_true.mp (Bool.and_eq_true_iff.mp hexplicit).1
  refine hrows (s.a.rows.getD i [], (i : ℕ)) (List.mk_mem_zipIdx_iff_getElem?.mpr ?_)
  rw [List.getElem?_eq_getElem hi, List.getD_eq_getElem _ _ hi]

theorem stageSlope_eq (hexplicit : s.isExplicit = true) (K : Fin s.stages → Fin m → ℝ)
    (i : Fin s.stages) : stageSlope s slope v t k K i =
      slope (v + k • combination (s.a.rows.getD i []) ((List.ofFn K).take i))
        (t + s.c.getD i 0 * k) := by
  rw [stageSlope, ← combination_row, combination_take (zeroFrom_of_isExplicit hexplicit i)]

theorem take_succ_ofFn {n : ℕ} (K : Fin n → Fin m → ℝ) (i : Fin n) :
    (List.ofFn K).take (i + 1) = (List.ofFn K).take i ++ [K i] := by
  rw [List.take_succ_eq_append_getElem (by rw [List.length_ofFn]; exact i.isLt), List.getElem_ofFn]

/-- **The equations of an explicit scheme have one solution**, the stages that are computed one
after the other. -/
theorem stages_iff (hexplicit : s.isExplicit = true) (K : Fin s.stages → Fin m → ℝ) :
    (∀ i, K i = stageSlope s slope v t k K i) ↔
      List.ofFn K = stagesUpTo s slope v t k s.stages := by
  constructor
  · intro hK
    have hprefix (i : ℕ) (hi : i ≤ s.stages) :
        (List.ofFn K).take i = stagesUpTo s slope v t k i := by
      induction i with
      | zero => rfl
      | succ i ih =>
        rw [take_succ_ofFn K ⟨i, hi⟩, hK, stageSlope_eq hexplicit, ih (by omega), stagesUpTo]
    have hall := hprefix s.stages le_rfl
    rwa [List.take_of_length_le List.length_ofFn.le] at hall
  · intro hK i
    have hprefix {j : ℕ} (hj : j ≤ s.stages) :
        (List.ofFn K).take j = stagesUpTo s slope v t k j := by
      rw [hK, stagesUpTo_take hj]
    have hnext := hprefix i.isLt
    rw [Nat.succ_eq_add_one, take_succ_ofFn, hprefix i.isLt.le, stagesUpTo] at hnext
    rw [stageSlope_eq hexplicit, hprefix i.isLt.le]
    exact List.singleton_inj.mp (List.append_cancel_left hnext)

end Explicit

/-! ### Both formulations -/

/-- **The residual of a Runge–Kutta scheme vanishes where its equations hold**, and nowhere else;
it is never negative. If the scheme is explicit the residual vanishes at one point only, and the
last block of that point is the state that the explicit step gives. -/
theorem residual_eq_zero_iff {m : ℕ} {slope : (Fin m → ℝ) → ℝ → Fin m → ℝ} {f : Field ℝ}
    (hf : ∀ u t, f (List.ofFn u) t = .ok (List.ofFn (slope u t))) (s : Tableau ℝ)
    (v : Fin m → ℝ) (t k : ℝ) :
    (∀ K y, ∃ r, s.residual f ⟨List.ofFn v, t⟩ k (stack (List.ofFn K) y) = .ok r ∧ 0 ≤ r ∧
      (r = 0 ↔ Solves s slope v t k K y)) ∧
    (s.isExplicit = true → ∃ u : Vec ℝ, u.length = (s.stages + 1) * m ∧
      (∀ w : Vec ℝ, w.length = (s.stages + 1) * m →
        (s.residual f ⟨List.ofFn v, t⟩ k w = .ok 0 ↔ w = u)) ∧
      s.explicitNext f ⟨List.ofFn v, t⟩ k = .ok (Tableau.block m s.stages u)) := by
  refine ⟨fun K y => residual_stack_eq_zero_iff hf K y, fun hexplicit => ?_⟩
  obtain ⟨K, hK⟩ : ∃ K : Fin s.stages → Fin m → ℝ,
      List.ofFn K = stagesUpTo s slope v t k s.stages := by
    obtain ⟨K, hK⟩ := Vec.exists_eq_ofFn (length_stagesUpTo s.stages)
    exact ⟨K, hK.symm⟩
  have hsolves : Solves s slope v t k K (nextState s v k K) :=
    ⟨(stages_iff hexplicit K).mpr hK, rfl⟩
  refine ⟨stack (List.ofFn K) (nextState s v k K), ?_, fun w hw => ⟨fun hzero => ?_, ?_⟩, ?_⟩
  · rw [length_stack, List.length_ofFn]
  · obtain ⟨stages, y, hlength, rfl⟩ := exists_eq_stack hw
    obtain ⟨K', rfl⟩ := Vec.exists_eq_ofFn hlength
    obtain ⟨r, hr, -, hiff⟩ := residual_stack_eq_zero_iff hf K' y
    have hsolves' := hiff.mp (Except.ok.inj (hr.symm.trans hzero))
    obtain rfl : K' = K :=
      List.ofFn_injective (((stages_iff hexplicit K').mp hsolves'.stage).trans hK.symm)
    rw [hsolves'.next]
  · rintro rfl
    obtain ⟨r, hr, -, hiff⟩ := residual_stack_eq_zero_iff hf K (nextState s v k K)
    rw [hr, hiff.mpr hsolves]
  · have hblock := block_stack (List.ofFn K) (nextState s v k K)
    rw [List.length_ofFn] at hblock
    rw [hblock, explicitNext_eq hf, ← hK, combination_ofFn (show s.b.length = s.stages from rfl) K]
    rfl

/-- The classical scheme with four stages, for the decay from one, is such a scheme. -/
theorem residual_eq_zero_iff_decay :
    ∃ u : Vec ℝ, u.length = (4 + 1) * 1 ∧
      (∀ w : Vec ℝ, w.length = (4 + 1) * 1 →
        ((Tableau.ofPreset .classicalFourthOrder).residual (fun u _ => .ok u.neg)
          ⟨List.ofFn (1 : Fin 1 → ℝ), 0⟩ (1 / 2) w = .ok 0 ↔ w = u)) ∧
      (Tableau.ofPreset .classicalFourthOrder).explicitNext (fun u _ => .ok u.neg)
        ⟨List.ofFn (1 : Fin 1 → ℝ), 0⟩ (1 / 2) = .ok (Tableau.block 1 4 u) := by
  have hexplicit : (Tableau.ofPreset .classicalFourthOrder : Tableau ℝ).isExplicit = true := by
    simp [Tableau.isExplicit, Tableau.ofPreset, Tableau.zeroFrom]
  have hslope (u : Fin 1 → ℝ) (_ : ℝ) : Except.ok (Vec.neg (List.ofFn u)) =
      (.ok (List.ofFn (-u)) : Except Fault (Vec ℝ)) := by
    rw [Vec.neg_ofFn]
  exact (residual_eq_zero_iff hslope (.ofPreset .classicalFourthOrder) 1 0 (1 / 2)).2 hexplicit

end Stepwise.Ode
