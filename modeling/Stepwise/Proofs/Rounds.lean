import Stepwise.Rounds

/-!
# What a search keeps from round to round

A state belongs to a search if some number of its rounds ends with it. Its rounds can be
counted from the end (`Stepwise.rounds_succ_eq_again`), which is how an invariant is
carried along, and the search itself ends in the round that makes an answer of such a
state (`Stepwise.rounds_eq_done`).

What holds at the start and is kept by every round holds of every state reached
(`Stepwise.rounds_invariant`). What one round brings about and all later ones keep holds
in the end, be it a state or an answer (`Stepwise.rounds_all_of_round`).

Two searches of one shape can be compared round by round: if translating a state and
then making a round is making the round and then translating, the same is true of the
whole search (`Stepwise.rounds_map`). Two searches from one state are the same as long as
their rounds are, so either they end alike or there is a first round in which they part
(`Stepwise.rounds_eq_or_part`); and if their rounds are the same wherever the search comes,
they never part (`Stepwise.rounds_congr`).
-/

namespace Stepwise

variable {σ τ α β ε : Type}

/-! ### The states of a search -/

section States

variable {round : Nat → σ → Round σ α} {first : Nat} {state : σ}

/-- The last of several rounds comes after the others. -/
theorem rounds_succ_eq_again {n : Nat} {next : σ} :
    rounds round (n + 1) first state = .again next ↔
      ∃ mid, rounds round n first state = .again mid ∧ round (first + n) mid = .again next := by
  -- The rounds are made from the first on, so the induction has to let the first vary.
  induction n generalizing first state with
  | zero =>
    cases h : round first state <;> simp [rounds, h]
  | succ n ih =>
    cases h : round first state with
    | again mid =>
      rw [rounds_succ_of_again h, rounds_succ_of_again h, ih, Nat.add_right_comm first 1 n]
      rfl
    | done answer => simp [rounds_succ_of_done h]

/-- A search ends in the round that makes an answer of the state reached before. -/
theorem rounds_eq_done {cap : Nat} {answer : α} :
    rounds round cap first state = .done answer ↔
      ∃ n < cap, ∃ mid, rounds round n first state = .again mid ∧
        round (first + n) mid = .done answer := by
  induction cap generalizing first state with
  | zero => simp
  | succ cap ih =>
    cases h : round first state with
    | again next =>
      rw [rounds_succ_of_again h, ih]
      -- A search that starts one round later counts one round less.
      constructor
      · rintro ⟨n, hn, mid, hmid, hdone⟩
        refine ⟨n + 1, by omega, mid, by rwa [rounds_succ_of_again h], ?_⟩
        rwa [show first + (n + 1) = first + 1 + n by omega]
      · rintro ⟨n, hn, mid, hmid, hdone⟩
        cases n with
        | zero =>
          cases hmid
          exact nomatch h.symm.trans hdone
        | succ n =>
          rw [rounds_succ_of_again h] at hmid
          refine ⟨n, by omega, mid, hmid, ?_⟩
          rwa [show first + 1 + n = first + (n + 1) by omega]
    | done found =>
      rw [rounds_succ_of_done h]
      constructor
      · intro hdone
        cases hdone
        exact ⟨0, by omega, state, rfl, h⟩
      · rintro ⟨n, -, mid, hmid, hdone⟩
        cases n with
        | zero =>
          cases hmid
          exact h.symm.trans hdone
        | succ n => exact nomatch (rounds_succ_of_done h n).symm.trans hmid

/-- After some rounds a search goes on from where they have led. -/
theorem rounds_add {n : Nat} {mid : σ} (h : rounds round n first state = .again mid) (m : Nat) :
    rounds round (n + m) first state = rounds round m (first + n) mid := by
  induction n generalizing first state with
  | zero =>
    cases h
    rw [Nat.zero_add]
    rfl
  | succ n ih =>
    cases hr : round first state with
    | done answer => exact nomatch (rounds_succ_of_done hr n).symm.trans h
    | again next =>
      rw [rounds_succ_of_again hr] at h
      rw [Nat.add_right_comm, rounds_succ_of_again hr, ih h, Nat.add_right_comm first 1 n]
      rfl

end States

/-! ### What is kept -/

/-- **What every round keeps, the search keeps**: it is true of every state that some
number of rounds leads to. -/
theorem rounds_invariant {round : Nat → σ → Round σ α} {P : σ → Prop} {first : Nat} {state : σ}
    (hstart : P state) (hround : ∀ i s next, P s → round i s = .again next → P next) {n : Nat}
    {reached : σ} (h : rounds round n first state = .again reached) : P reached := by
  induction n generalizing reached with
  | zero =>
    cases h
    exact hstart
  | succ n ih =>
    obtain ⟨mid, hmid, hlast⟩ := rounds_succ_eq_again.mp h
    exact hround _ mid reached (ih hmid) hlast

/-- What holds of the state that a round hands on, or of the answer that it ends with. -/
def Round.All (P : σ → Prop) (Q : α → Prop) : Round σ α → Prop
  | .again state => P state
  | .done answer => Q answer

section Ends

variable {round : Nat → σ → Round σ α} {P : σ → Prop} {Q : α → Prop}

/-- What every round keeps, up to the answer, the search keeps. -/
theorem rounds_all (hround : ∀ i s, P s → (round i s).All P Q) (cap first : Nat) {state : σ}
    (hstart : P state) : (rounds round cap first state).All P Q := by
  induction cap generalizing first state with
  | zero => exact hstart
  | succ cap ih =>
    have hfirst := hround first state hstart
    cases hr : round first state with
    | again next =>
      rw [hr] at hfirst
      rw [rounds_succ_of_again hr]
      exact ih (first + 1) hfirst
    | done answer =>
      rw [hr] at hfirst
      rw [rounds_succ_of_done hr]
      exact hfirst

/-- **What one round brings about, and every later one keeps, holds in the end.** -/
theorem rounds_all_of_round (hround : ∀ i s, P s → (round i s).All P Q) {cap first n : Nat}
    {state mid : σ} (hn : n < cap) (hmid : rounds round n first state = .again mid)
    (hbrings : (round (first + n) mid).All P Q) : (rounds round cap first state).All P Q := by
  obtain ⟨rest, rfl⟩ : ∃ rest, cap = n + (rest + 1) := ⟨cap - n - 1, by omega⟩
  rw [rounds_add hmid]
  cases hr : round (first + n) mid with
  | again next =>
    rw [hr] at hbrings
    rw [rounds_succ_of_again hr]
    exact rounds_all hround rest (first + n + 1) hbrings
  | done answer =>
    rw [hr] at hbrings
    rw [rounds_succ_of_done hr]
    exact hbrings

end Ends

/-! ### Rounds that may fail -/

section Failing

variable {x : Except ε (Round σ α)}

@[simp] theorem orFail_eq_again {state : σ} :
    Round.orFail x = .again state ↔ x = .ok (.again state) := by
  rcases x with e | state | answer <;> simp [Round.orFail]

@[simp] theorem orFail_eq_done_ok {answer : α} :
    Round.orFail x = .done (.ok answer) ↔ x = .ok (.done answer) := by
  rcases x with e | state | answer <;> simp [Round.orFail]

/-- A search whose rounds may fail finds an answer in the round that makes one of the state
reached before. -/
theorem rounds_orFail_eq_done_ok {round : Nat → σ → Except ε (Round σ α)} {cap first : Nat}
    {state : σ} {answer : α} :
    rounds (fun i s => .orFail (round i s)) cap first state = .done (.ok answer) ↔
      ∃ n < cap, ∃ mid, rounds (fun i s => .orFail (round i s)) n first state = .again mid ∧
        round (first + n) mid = .ok (.done answer) := by
  simp only [rounds_eq_done, orFail_eq_done_ok]

end Failing

/-! ### Searches of one shape -/

/-- What a round comes to, with its state and its answer translated. -/
def Round.map (f : σ → τ) (g : α → β) : Round σ α → Round τ β
  | .again state => .again (f state)
  | .done answer => .done (g answer)

/-- **A translation that commutes with every round commutes with the search.** -/
theorem rounds_map {round : Nat → σ → Round σ α} {round' : Nat → τ → Round τ β} {f : σ → τ}
    {g : α → β} (h : ∀ n s, round' n (f s) = (round n s).map f g) (cap first : Nat) (state : σ) :
    rounds round' cap first (f state) = (rounds round cap first state).map f g := by
  induction cap generalizing first state with
  | zero => rfl
  | succ cap ih =>
    have hround := h first state
    cases hr : round first state with
    | again next =>
      rw [hr] at hround
      rw [rounds_succ_of_again hr, rounds_succ_of_again hround, ih]
    | done answer =>
      rw [hr] at hround
      rw [rounds_succ_of_done hr, rounds_succ_of_done hround]
      rfl

/-! ### Searches from one state -/

/-- **Two searches from one state end alike, or there is a first round in which they part.** -/
theorem rounds_eq_or_part (round round' : Nat → σ → Round σ α) (cap first : Nat) (state : σ) :
    rounds round' cap first state = rounds round cap first state ∨
      ∃ n < cap, ∃ mid, rounds round n first state = .again mid ∧
        rounds round' n first state = .again mid ∧
        round' (first + n) mid ≠ round (first + n) mid := by
  induction cap generalizing first state with
  | zero => exact .inl rfl
  | succ cap ih =>
    by_cases hsame : round' first state = round first state
    · cases hr : round first state with
      | done answer =>
        left
        rw [rounds_succ_of_done hr, rounds_succ_of_done (hsame.trans hr)]
      | again next =>
        have hr' := hsame.trans hr
        rw [rounds_succ_of_again hr, rounds_succ_of_again hr']
        -- What happens after the first round is counted from the second on.
        refine (ih (first + 1) next).imp_right ?_
        rintro ⟨n, hn, mid, hmid, hmid', hpart⟩
        refine ⟨n + 1, by omega, mid, ?_, ?_, ?_⟩
        · rwa [rounds_succ_of_again hr]
        · rwa [rounds_succ_of_again hr']
        · rwa [show first + (n + 1) = first + 1 + n by omega]
    · exact .inr ⟨0, by omega, state, rfl, rfl, hsame⟩

/-- Two searches are the same if their rounds are, at every state that is reached. -/
theorem rounds_congr {round round' : Nat → σ → Round σ α} {cap first : Nat} {state : σ}
    (h : ∀ n mid, rounds round n first state = .again mid →
      round' (first + n) mid = round (first + n) mid) :
    rounds round' cap first state = rounds round cap first state := by
  rcases rounds_eq_or_part round round' cap first state with hsame | ⟨n, -, mid, hmid, -, hpart⟩
  · exact hsame
  · exact absurd (h n mid hmid) hpart

end Stepwise
