import Stepwise.Proofs.Descent.Course

/-!
# Descents that nobody interrupts

Under an observer that never objects a descent is told by its iterates alone. It arrives at the
starting point; from an iterate where the gradient is longer than the tolerance it arrives where
the line search leads (`Stepwise.Descent.Arrives.succ`), and it ends where the gradient is no
longer than that (`Stepwise.Descent.Arrives.converged`), where there is no way on
(`Stepwise.Descent.Arrives.failed`), or when the cap is reached
(`Stepwise.Descent.Arrives.exhausted`). The cap is reached if the first step leads nowhere
(`Stepwise.Descent.Arrives.stuck`).
-/

namespace Stepwise.Descent

variable {R : Type} [Scalar R]

/-- The descent from `x₀` under the silent observer comes to a standing as iterate number `n`. -/
def Arrives (f : Oracle R) (s : Settings R) (x₀ : Vec R) (n : Nat) (here : Standing R) : Prop :=
  ∃ journal, Reaches f s .silent () x₀ n ⟨here, (), journal⟩

namespace Arrives

variable {f : Oracle R} {s : Settings R} {x₀ gradient : Vec R} {value : R} {n : Nat}
  {here next : Standing R}

theorem zero {guide : Guide R} (h : Guide.start f s.method x₀ = .ok guide) :
    Arrives f s x₀ 0 ⟨x₀, guide⟩ :=
  ⟨#[], Reaches.zero.mpr ⟨guide, h, rfl⟩⟩

/-- What the loop observes is what the oracle answers at the iterate. -/
theorem observe (h : Arrives f s x₀ n here) (hgradient : f.gradient here.point = .ok gradient)
    (hvalue : f.value here.point = .ok value) :
    here.observe f s n =
      .ok (gradient, ⟨s.method, n, here.point, value, gradient.norm⟩) := by
  obtain ⟨journal, hreach⟩ := h
  simp [Standing.observe, gradient_iterate hreach.iterate_eq, hgradient, hvalue]

/-- **From an iterate where the gradient is long the descent arrives where the line search
leads.** -/
theorem succ (h : Arrives f s x₀ n here) (hgradient : f.gradient here.point = .ok gradient)
    (hvalue : f.value here.point = .ok value) (hlong : ¬gradient.norm ≤ s.epsilon)
    (hadvance : here.advance f s = .ok next) : Arrives f s x₀ (n + 1) next := by
  have hobserve := h.observe hgradient hvalue
  obtain ⟨journal, hreach⟩ := h
  have hmove : here.move f s n gradient =
      ((here.move f s n gradient).1, .ok next) := by
    rw [← hadvance, ← move_snd hgradient n]
  exact ⟨_, Reaches.succ.mpr ⟨_, hreach, passage_iff.mp
    (.onward hobserve (ending?_eq_none.mpr ⟨hlong, rfl⟩) hmove)⟩⟩

/-- Where the gradient is short the descent has converged. -/
theorem converged (h : Arrives f s x₀ n here) (hn : n < s.maxIters)
    (hgradient : f.gradient here.point = .ok gradient) (hvalue : f.value here.point = .ok value)
    (hshort : gradient.norm ≤ s.epsilon) :
    (descend f s .silent () x₀).outcome =
      .ok ⟨.converged, here.point, value, gradient.norm, n⟩ := by
  have hobserve := h.observe hgradient hvalue
  obtain ⟨journal, hreach⟩ := h
  rw [hreach.descend_eq hn (passage_iff.mp
    (.ending hobserve (ending?_eq_some.mpr (.inl ⟨hshort, rfl⟩))))]
  rfl

/-- Where there is no way on the descent fails. -/
theorem failed (h : Arrives f s x₀ n here) (hn : n < s.maxIters)
    (hgradient : f.gradient here.point = .ok gradient) (hvalue : f.value here.point = .ok value)
    (hlong : ¬gradient.norm ≤ s.epsilon) {e : Failure (Error R)}
    (hadvance : here.advance f s = .error e) :
    (descend f s .silent () x₀).outcome = .error e := by
  have hobserve := h.observe hgradient hvalue
  obtain ⟨journal, hreach⟩ := h
  have hmove : here.move f s n gradient = ((here.move f s n gradient).1, .error e) := by
    rw [← hadvance, ← move_snd hgradient n]
  rw [hreach.descend_eq hn (passage_iff.mp
    (.failure hobserve (ending?_eq_none.mpr ⟨hlong, rfl⟩) hmove))]

/-- At the cap the descent gives up. -/
theorem exhausted (h : Arrives f s x₀ s.maxIters here) :
    (descend f s .silent () x₀).outcome =
      .error (.error (.notConverged (.method s.method) s.maxIters)) := by
  obtain ⟨journal, hreach⟩ := h
  rw [hreach.descend_eq_of_cap]

/-- **A descent that does not move uses up its rounds**, because it makes the same step again and
again. -/
theorem stuck (h : Arrives f s x₀ 0 here) (hgradient : f.gradient here.point = .ok gradient)
    (hvalue : f.value here.point = .ok value) (hlong : ¬gradient.norm ≤ s.epsilon)
    (hstays : here.advance f s = .ok here) :
    (descend f s .silent () x₀).outcome =
      .error (.error (.notConverged (.method s.method) s.maxIters)) := by
  have hforever (i : ℕ) : Arrives f s x₀ i here := by
    induction i with
    | zero => exact h
    | succ i ih => exact ih.succ hgradient hvalue hlong hstays
  exact (hforever s.maxIters).exhausted

end Arrives

end Stepwise.Descent
