import Stepwise.Descent.LineSearch
import Stepwise.Proofs.Outcomes
import Stepwise.Proofs.Linear.Vectors

/-!
# Where line searches land

A line search is the trivial one, or it is a search along a unit direction
(`Stepwise.Descent.lineSearch_cases`). What the five have in common follows from that.

Whatever it looks for, a line search lands on a ray from the point where it started
(`Stepwise.Descent.lineSearch_onRay`), and so it stays among vectors of one length. And
however it fails, it is never the descent that has run out of rounds
(`Stepwise.Descent.lineSearch_failure`).
-/

namespace Stepwise.Descent

variable {R : Type} [Scalar R]

/-- **A line search is the trivial one or a search along a unit direction.** -/
theorem lineSearch_cases (f : Oracle R) (s : Settings R) (x p : Vec R) :
    lineSearch f s x p = (do return ⟨← (⟨x, p⟩ : Ray R).point s.trivialStep, none⟩) ∨
      ∃ find, lineSearch f s x p = landAlong find s x p := by
  rw [lineSearch]
  cases s.search with
  | trivial => exact .inl rfl
  | goldenSection => exact .inr ⟨_, rfl⟩
  | fibonacci => exact .inr ⟨_, rfl⟩
  | newton => exact .inr ⟨_, rfl⟩
  | bisection => exact .inr ⟨_, rfl⟩

variable {f : Oracle R} {s : Settings R} {x p : Vec R} {landing : Landing R}
  {find : Ray R → Except (Failure (Breakdown R)) (Option (Hit R))}

/-! ### Landings -/

omit [Scalar R] in
theorem fail_eq_ok {α : Type} {r : Except (Breakdown R) α} {a : α} :
    Breakdown.fail r = .ok a ↔ r = .ok a := by
  cases r <;> simp [Breakdown.fail]

theorem origin_of_ofDirection {ray : Ray R} (h : Ray.ofDirection x p = .ok ray) :
    ray.origin = x := by
  simp only [Ray.ofDirection] at h
  split at h
  · cases h
    rfl
  · exact nomatch h

/-- The parts of a search along a unit direction. -/
theorem landAlong_eq_ok :
    landAlong find s x p = .ok landing ↔
      ∃ ray hit point, Ray.ofDirection x p = .ok ray ∧ find ray = .ok (some hit) ∧
        ray.point hit.t = .ok point ∧ landing = ⟨point, some hit⟩ := by
  simp only [landAlong, bind_eq_ok, fail_eq_ok, mapError_eq_ok]
  constructor
  · rintro ⟨ray, hray, hit?, hfind, h⟩
    cases hit? with
    | none => exact nomatch h
    | some hit =>
      simp only [lift_eq_ofFault, bind_eq_ok, Failure.ofFault_eq_ok, pure_eq_ok_iff] at h
      obtain ⟨point, hpoint, rfl⟩ := h
      exact ⟨ray, hit, point, hray, hfind, hpoint, rfl⟩
  · rintro ⟨ray, hit, point, hray, hfind, hpoint, rfl⟩
    refine ⟨ray, hray, some hit, hfind, ?_⟩
    simp [lift_eq_ofFault, hpoint]

/-- **A line search lands on a ray from where it started.** -/
theorem lineSearch_onRay (h : lineSearch f s x p = .ok landing) :
    ∃ heading t, (⟨x, heading⟩ : Ray R).point t = .ok landing.point := by
  rcases lineSearch_cases f s x p with htrivial | ⟨find, hfind⟩
  · rw [htrivial, lift_eq_ofFault, bind_eq_ok] at h
    obtain ⟨point, hpoint, hlanding⟩ := h
    cases hlanding
    exact ⟨p, s.trivialStep, Failure.ofFault_eq_ok.mp hpoint⟩
  · rw [hfind] at h
    obtain ⟨ray, hit, point, hray, -, hpoint, rfl⟩ := landAlong_eq_ok.mp h
    rw [← origin_of_ofDirection hray]
    exact ⟨ray.heading, hit.t, hpoint⟩

/-- A line search stays among vectors of one length. -/
theorem length_of_lineSearch (h : lineSearch f s x p = .ok landing) :
    landing.point.length = x.length := by
  obtain ⟨heading, t, hpoint⟩ := lineSearch_onRay h
  exact Vec.length_of_combine hpoint

/-! ### Failures -/

/-- The ways in which the search for the next iterate can fail: in none of them does the
descent itself run out of rounds. -/
inductive WayFailure (s : Settings R) : Failure (Error R) → Prop
  /-- Sizes do not fit. -/
  | fault (e : Fault) : WayFailure s (.fault e)
  /-- A quotient has no meaning. -/
  | breakdown (cause : Breakdown R) : WayFailure s (.error (.breakdown cause))
  /-- The line search runs out of rounds. -/
  | search : WayFailure s (.error (.notConverged (.search s.search) s.maxIters))

omit [Scalar R] in
theorem wayFailure_ofFault {α : Type} {x : Except Fault α} {e : Failure (Error R)}
    (h : Failure.ofFault x = .error e) : WayFailure s e := by
  obtain ⟨fault, -, rfl⟩ := Failure.ofFault_eq_error.mp h
  exact .fault fault

omit [Scalar R] in
theorem wayFailure_mapError {α : Type} {x : Except (Failure (Breakdown R)) α}
    {e : Failure (Error R)} (h : x.mapError (Failure.map .breakdown) = .error e) :
    WayFailure s e := by
  obtain ⟨e, -, rfl⟩ := mapError_eq_error.mp h
  cases e with
  | fault fault => exact .fault fault
  | error cause => exact .breakdown cause

omit [Scalar R] in
theorem wayFailure_fail {α : Type} {x : Except (Breakdown R) α} {e : Failure (Error R)}
    (h : Breakdown.fail x = .error e) : WayFailure s e := by
  cases x with
  | error cause =>
    cases h
    exact .breakdown cause
  | ok a => exact nomatch h

theorem landAlong_failure {e : Failure (Error R)} (h : landAlong find s x p = .error e) :
    WayFailure s e := by
  rw [landAlong, bind_eq_error] at h
  -- It is the direction that fails, or the search along it, or the point where it ends.
  rcases h with h | ⟨ray, -, h⟩
  · exact wayFailure_fail h
  rcases bind_eq_error.mp h with h | ⟨hit?, -, h⟩
  · exact wayFailure_mapError h
  cases hit? with
  | none =>
    cases h
    exact .search
  | some hit =>
    rcases bind_eq_error.mp h with h | ⟨point, -, h⟩
    · exact wayFailure_ofFault h
    · exact nomatch h

/-- **A line search fails in one of these ways.** -/
theorem lineSearch_failure {e : Failure (Error R)} (h : lineSearch f s x p = .error e) :
    WayFailure s e := by
  rcases lineSearch_cases f s x p with htrivial | ⟨find, hfind⟩
  · rw [htrivial] at h
    rcases bind_eq_error.mp h with h | ⟨point, -, h⟩
    · exact wayFailure_ofFault h
    · exact nomatch h
  · rw [hfind] at h
    exact landAlong_failure h

end Stepwise.Descent
