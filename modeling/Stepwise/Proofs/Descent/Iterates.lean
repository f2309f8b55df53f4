import Stepwise.Descent.Run
import Stepwise.Proofs.Descent.Landings

/-!
# The iterates of a descent

The iterates of a descent are defined by what they are for: iterate number `n` is the
place that `n` line searches lead to, each in the direction that the method derives from
the gradient at the iterate before. Nothing is carried along here but the guide, and the
gradient is evaluated where it is needed; no observer, journal or cap plays a part.

The loop of a descent is thriftier: it takes the gradient from the guide, and the
quasi-Newton guide answers with one that it was given when the iterate was reached.
That this is the gradient at the iterate (`Stepwise.Descent.gradient_iterate`) is the
reason why the loop visits these iterates and no others.
-/

namespace Stepwise.Descent

variable {R : Type} [Scalar R]

/-! ### The sequence -/

/-- The next iterate and the guide there, by one line search. -/
def Standing.advance (f : Oracle R) (s : Settings R) (here : Standing R) :
    Except (Failure (Error R)) (Standing R) := do
  let gradient ← f.gradient here.point
  let landing ← here.land f s gradient
  let guide ← (here.guide.follow f here.point landing.point).mapError (Failure.map .breakdown)
  return ⟨landing.point, guide⟩

variable (f : Oracle R) (s : Settings R) (x₀ : Vec R)

/-- Iterate number `n` of the descent from `x₀`, with the guide there. -/
def iterate : Nat → Except (Failure (Error R)) (Standing R)
  | 0 => do return ⟨x₀, ← Guide.start f s.method x₀⟩
  | n + 1 => do (← iterate n).advance f s

/-- What there is to observe at iterate number `n`: the point, and the value and the
length of the gradient at this point. -/
def visit (n : Nat) : Except (Failure (Error R)) (Visit R) := do
  let here ← iterate f s x₀ n
  let gradient ← f.gradient here.point
  let objective ← f.value here.point
  return ⟨s.method, n, here.point, objective, gradient.norm⟩

variable {f : Oracle R} {s : Settings R} {x₀ : Vec R}

/-- The parts of a step to the next iterate. -/
theorem advance_eq_ok {here next : Standing R} :
    here.advance f s = .ok next ↔
      ∃ gradient landing guide, f.gradient here.point = .ok gradient ∧
        here.land f s gradient = .ok landing ∧
        here.guide.follow f here.point landing.point = .ok guide ∧
        next = ⟨landing.point, guide⟩ := by
  simp only [Standing.advance, lift_eq_ofFault, bind_eq_ok, Failure.ofFault_eq_ok, mapError_eq_ok,
    pure_eq_ok_iff]
  constructor
  · rintro ⟨gradient, hgradient, landing, hland, guide, hfollow, rfl⟩
    exact ⟨gradient, landing, guide, hgradient, hland, hfollow, rfl⟩
  · rintro ⟨gradient, landing, guide, hgradient, hland, hfollow, rfl⟩
    exact ⟨gradient, hgradient, landing, hland, guide, hfollow, rfl⟩

theorem iterate_zero_eq_ok {here : Standing R} :
    iterate f s x₀ 0 = .ok here ↔
      here.point = x₀ ∧ Guide.start f s.method x₀ = .ok here.guide := by
  obtain ⟨point, guide⟩ := here
  simp only [iterate, lift_eq_ofFault, bind_eq_ok, Failure.ofFault_eq_ok, pure_eq_ok_iff,
    Standing.mk.injEq]
  constructor
  · rintro ⟨_, hstart, rfl, rfl⟩
    exact ⟨rfl, hstart⟩
  · rintro ⟨rfl, hstart⟩
    exact ⟨guide, hstart, rfl, rfl⟩

theorem iterate_succ_eq_ok {n : Nat} {next : Standing R} :
    iterate f s x₀ (n + 1) = .ok next ↔
      ∃ here, iterate f s x₀ n = .ok here ∧ here.advance f s = .ok next := by
  rw [iterate, bind_eq_ok]

theorem iterate_succ {n : Nat} {here : Standing R} (h : iterate f s x₀ n = .ok here) :
    iterate f s x₀ (n + 1) = here.advance f s := by
  rw [iterate, h]
  rfl

/-- The parts of a visit. -/
theorem visit_eq_ok {n : Nat} {e : Visit R} :
    visit f s x₀ n = .ok e ↔
      ∃ here gradient objective, iterate f s x₀ n = .ok here ∧
        f.gradient here.point = .ok gradient ∧ f.value here.point = .ok objective ∧
        e = ⟨s.method, n, here.point, objective, gradient.norm⟩ := by
  simp only [visit, lift_eq_ofFault, bind_eq_ok, Failure.ofFault_eq_ok, pure_eq_ok_iff]
  constructor
  · rintro ⟨here, hhere, gradient, hgradient, objective, hobjective, rfl⟩
    exact ⟨here, gradient, objective, hhere, hgradient, hobjective, rfl⟩
  · rintro ⟨here, gradient, objective, hhere, hgradient, hobjective, rfl⟩
    exact ⟨here, hhere, gradient, hgradient, objective, hobjective, rfl⟩

/-- All iterates are as long as the first one. -/
theorem length_of_iterate {n : Nat} {here : Standing R} (h : iterate f s x₀ n = .ok here) :
    here.point.length = x₀.length := by
  induction n generalizing here with
  | zero => rw [(iterate_zero_eq_ok.mp h).1]
  | succ n ih =>
    obtain ⟨before, hbefore, hadvance⟩ := iterate_succ_eq_ok.mp h
    obtain ⟨gradient, landing, guide, -, hland, -, rfl⟩ := advance_eq_ok.mp hadvance
    obtain ⟨direction, -, hland⟩ := bind_eq_ok.mp hland
    rw [← ih hbefore]
    exact length_of_lineSearch hland

/-! ### The gradient that is carried along -/

/-- A guide that sets out knows the gradient at its starting point. -/
theorem gradient_start {method : Method} {guide : Guide R}
    (h : Guide.start f method x₀ = .ok guide) : guide.gradient f x₀ = f.gradient x₀ := by
  cases method with
  | gradientDescent =>
    cases h
    rfl
  | newton =>
    cases h
    rfl
  | quasiNewton =>
    obtain ⟨gradient, hgradient, hguide⟩ := bind_eq_ok.mp h
    cases hguide
    exact hgradient.symm

/-- A guide that has followed knows the gradient at the next point. -/
theorem gradient_follow {guide guide' : Guide R} {x next : Vec R}
    (h : guide.follow f x next = .ok guide') : guide'.gradient f next = f.gradient next := by
  cases guide with
  | steepest =>
    cases h
    rfl
  | newton =>
    cases h
    rfl
  | quasiNewton gradient inverse =>
    simp only [Guide.follow, lift_eq_ofFault, bind_eq_ok, Failure.ofFault_eq_ok] at h
    obtain ⟨nextGradient, hgradient, _, _, _, _, _, _, hguide⟩ := h
    cases hguide
    exact hgradient.symm

/-- **The gradient at an iterate is the one its guide knows.** -/
theorem gradient_iterate {n : Nat} {here : Standing R} (h : iterate f s x₀ n = .ok here) :
    here.guide.gradient f here.point = f.gradient here.point := by
  -- No induction: the guide was made at this very iterate, at the start or by following.
  cases n with
  | zero =>
    obtain ⟨hpoint, hstart⟩ := iterate_zero_eq_ok.mp h
    rw [hpoint]
    exact gradient_start hstart
  | succ n =>
    obtain ⟨before, -, hadvance⟩ := iterate_succ_eq_ok.mp h
    obtain ⟨_, landing, guide, -, -, hfollow, rfl⟩ := advance_eq_ok.mp hadvance
    exact gradient_follow hfollow

/-! ### The loop's own way to observe and to move -/

/-- What the loop observes at an iterate is what there is to observe. -/
theorem observe_iterate {n : Nat} {here : Standing R} {gradient : Vec R} {e : Visit R}
    (hiter : iterate f s x₀ n = .ok here) (h : here.observe f s n = .ok (gradient, e)) :
    f.gradient here.point = .ok gradient ∧ visit f s x₀ n = .ok e := by
  simp only [Standing.observe, gradient_iterate hiter, bind_eq_ok, pure_eq_ok_iff] at h
  obtain ⟨_, hgradient, objective, hobjective, heq⟩ := h
  cases heq
  exact ⟨hgradient, visit_eq_ok.mpr ⟨here, _, _, hiter, hgradient, hobjective, rfl⟩⟩

/-- The loop moves where the next line search leads. -/
theorem move_snd {here : Standing R} {gradient : Vec R}
    (h : f.gradient here.point = .ok gradient) (n : Nat) :
    (here.move f s n gradient).2 = here.advance f s := by
  simp only [Standing.advance, Standing.move, h, lift_eq_ofFault, Failure.ofFault_ok, ok_bind]
  cases here.land f s gradient with
  | error e => rfl
  | ok landing =>
    simp only [ok_bind]
    cases here.guide.follow f here.point landing.point <;> rfl

/-! ### What can go wrong on the way -/

/-- **What can go wrong on the way to the next iterate.** -/
theorem advance_failure {here : Standing R} {e : Failure (Error R)}
    (h : here.advance f s = .error e) : WayFailure s e := by
  rcases bind_eq_error.mp h with h | ⟨gradient, -, h⟩
  · exact wayFailure_ofFault h
  rcases bind_eq_error.mp h with h | ⟨landing, -, h⟩
  · rcases bind_eq_error.mp h with h | ⟨direction, -, h⟩
    · exact wayFailure_mapError h
    · exact lineSearch_failure h
  rcases bind_eq_error.mp h with h | ⟨guide, -, h⟩
  · exact wayFailure_mapError h
  · exact nomatch h

end Stepwise.Descent
