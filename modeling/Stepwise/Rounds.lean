/-!
# Rounds under a cap

Every search of this library works in rounds: a round either hands a new state to
the next round or ends the search with an answer, and a cap limits their number.
`Stepwise.rounds` is that scheme, once and for all, so that what a search keeps from
round to round is one induction and not one for every search.

The rounds are numbered, since a search may report the round in which it ended. If
the cap is used up, the state the next round would have started from is returned. An
answer does not depend on the cap: a larger one gives the same
(`Stepwise.rounds_done_of_le`).
-/

namespace Stepwise

/-- What a round comes to: a state for the next round, or an answer. -/
inductive Round (σ α : Type) where
  /-- The search goes on from this state. -/
  | again (state : σ)
  /-- The search is over. -/
  | done (answer : α)

variable {σ α ε : Type}

/-- At most `cap` rounds from `state`, numbered from `first`. -/
@[specialize] def rounds (round : Nat → σ → Round σ α) : (cap first : Nat) → (state : σ) → Round σ α
  | 0, _, state => .again state
  | cap + 1, first, state =>
    match round first state with
    | .again next => rounds round cap (first + 1) next
    | .done answer => .done answer

/-- A round that may fail, as a round that ends the search when it does. -/
def Round.orFail : Except ε (Round σ α) → Round σ (Except ε α)
  | .error e => .done (.error e)
  | .ok (.again state) => .again state
  | .ok (.done answer) => .done (.ok answer)

/-! ### The first round and the rest -/

@[simp] theorem rounds_zero (round : Nat → σ → Round σ α) (first : Nat) (state : σ) :
    rounds round 0 first state = .again state := rfl

theorem rounds_succ_of_again {round : Nat → σ → Round σ α} {first : Nat} {state next : σ}
    (h : round first state = .again next) (cap : Nat) :
    rounds round (cap + 1) first state = rounds round cap (first + 1) next := by
  simp only [rounds, h]

theorem rounds_succ_of_done {round : Nat → σ → Round σ α} {first : Nat} {state : σ} {answer : α}
    (h : round first state = .done answer) (cap : Nat) :
    rounds round (cap + 1) first state = .done answer := by
  simp only [rounds, h]

/-! ### A larger cap -/

/-- An answer found under a cap is found under every larger one. -/
theorem rounds_done_of_le {round : Nat → σ → Round σ α} {cap cap' first : Nat} {state : σ}
    {answer : α} (h : rounds round cap first state = .done answer) (hle : cap ≤ cap') :
    rounds round cap' first state = .done answer := by
  induction cap generalizing cap' first state with
  | zero => simp at h
  | succ cap ih =>
    obtain ⟨cap', rfl⟩ : ∃ n, cap' = n + 1 := ⟨cap' - 1, by omega⟩
    cases hr : round first state with
    | again next =>
      rw [rounds_succ_of_again hr] at h ⊢
      exact ih h (by omega)
    | done found =>
      rw [rounds_succ_of_done hr] at h ⊢
      exact h

end Stepwise
