import Stepwise.Fault

/-!
# Calculations taken apart

A calculation made of several parts succeeds exactly if each part does, the later ones
on what the earlier ones gave. The lemmas here say so for every way in which parts are
joined, so that a successful calculation can be taken apart without opening it.
-/

namespace Stepwise

variable {ε δ α β : Type}

/-! ### One part after the other -/

/-- Two parts succeed exactly if the first does, and the second on its result. -/
theorem bind_eq_ok {x : Except ε α} {f : α → Except ε β} {b : β} :
    (x >>= f) = .ok b ↔ ∃ a, x = .ok a ∧ f a = .ok b := by
  cases x with
  | error e =>
    constructor
    · intro h
      exact nomatch h
    · rintro ⟨_, h, -⟩
      exact nomatch h
  | ok a =>
    refine ⟨fun h => ⟨a, rfl, h⟩, ?_⟩
    rintro ⟨_, h, hf⟩
    cases h
    exact hf

/-- Two parts fail as soon as one of them does. -/
theorem bind_eq_error {x : Except ε α} {f : α → Except ε β} {e : ε} :
    (x >>= f) = .error e ↔ x = .error e ∨ ∃ a, x = .ok a ∧ f a = .error e := by
  cases x with
  | error d =>
    constructor
    · intro h
      cases h
      exact .inl rfl
    · rintro (h | ⟨_, h, -⟩)
      · cases h
        rfl
      · exact nomatch h
  | ok a =>
    constructor
    · intro h
      exact .inr ⟨a, rfl, h⟩
    · rintro (h | ⟨_, h, hf⟩)
      · exact nomatch h
      · cases h
        exact hf

@[simp] theorem ok_bind (a : α) (f : α → Except ε β) :
    ((Except.ok a : Except ε α) >>= f) = f a := rfl

@[simp] theorem error_bind (e : ε) (f : α → Except ε β) :
    ((Except.error e : Except ε α) >>= f) = .error e := rfl

@[simp] theorem pure_eq_ok_iff {a b : α} : (pure a : Except ε α) = .ok b ↔ a = b :=
  ⟨fun h => Except.ok.inj h, fun h => congrArg _ h⟩

theorem map_eq_ok {x : Except ε α} {f : α → β} {b : β} :
    x.map f = .ok b ↔ ∃ a, x = .ok a ∧ f a = b := by
  cases x <;> simp [Except.map]

/-- What a computed result shows of a calculation that succeeds. -/
theorem exists_of_toOption_map {x : Except ε α} {f : α → β} {b : β}
    (h : x.toOption.map f = some b) : ∃ a, x = .ok a ∧ f a = b := by
  cases x with
  | error e => exact nomatch h
  | ok a => exact ⟨a, rfl, Option.some.inj h⟩

/-! ### One part for every member of a list -/

/-- A calculation for every member of a list succeeds on each, and gives the results in order. -/
theorem getElem?_of_mapM {f : α → Except ε β} {l : List α} {l' : List β} (h : l.mapM f = .ok l')
    {i : Nat} {a : α} (ha : l[i]? = some a) : ∃ b, f a = .ok b ∧ l'[i]? = some b := by
  induction l generalizing i l' with
  | nil => exact nomatch ha
  | cons c l ih =>
    rw [List.mapM_cons] at h
    obtain ⟨b, hb, h⟩ := bind_eq_ok.mp h
    obtain ⟨bs, hbs, h⟩ := bind_eq_ok.mp h
    rw [pure_eq_ok_iff] at h
    subst h
    cases i with
    | zero =>
      cases ha
      exact ⟨b, hb, rfl⟩
    | succ i => exact ih hbs ha

/-! ### Another reading of the failures -/

@[simp] theorem mapError_ok (f : ε → δ) (a : α) :
    (Except.ok a : Except ε α).mapError f = .ok a := rfl

@[simp] theorem mapError_error (f : ε → δ) (e : ε) :
    (Except.error e : Except ε α).mapError f = .error (f e) := rfl

theorem mapError_eq_ok {x : Except ε α} {f : ε → δ} {a : α} :
    x.mapError f = .ok a ↔ x = .ok a := by
  cases x <;> simp

theorem mapError_eq_error {x : Except ε α} {f : ε → δ} {d : δ} :
    x.mapError f = .error d ↔ ∃ e, x = .error e ∧ f e = d := by
  cases x <;> simp

/-! ### Calculations that can only meet faults -/

/-- A calculation that can only meet faults, inside one that may report errors too. -/
theorem lift_eq_ofFault (x : Except Fault α) :
    (liftM x : Except (Failure ε) α) = Failure.ofFault x := rfl

namespace Failure

@[simp] theorem ofFault_ok (a : α) :
    (ofFault (.ok a) : Except (Failure ε) α) = .ok a := rfl

@[simp] theorem ofFault_error (e : Fault) :
    (ofFault (.error e) : Except (Failure ε) α) = .error (.fault e) := rfl

theorem ofFault_eq_error {x : Except Fault α} {e : Failure ε} :
    ofFault x = .error e ↔ ∃ fault, x = .error fault ∧ e = .fault fault := by
  cases x <;> simp [eq_comm]

theorem ofFault_eq_ok {x : Except Fault α} {a : α} :
    (ofFault x : Except (Failure ε) α) = .ok a ↔ x = .ok a := by
  cases x <;> simp

end Failure

end Stepwise
