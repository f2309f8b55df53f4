import Stepwise.Proofs.Outcomes
import Stepwise.Proofs.Rounds

/-!
# Calculations that meet no fault

A calculation ends with a value or with a failure, and `Stepwise.Sound` says what is true of
either. Two uses of it matter here. A calculation that can only meet faults is
`Stepwise.Total` if it meets none, so that it has a value; one that may also report errors is
`Stepwise.Faultless` if what it ends with is a value or an error that it reports.

Nothing is opened to see that a calculation is sound. It is made of parts, joined by one of a
few means: one after the other, the same for every entry of a list, round after round. For
each of them a lemma says that the whole is sound if the parts are, and the value of one part
may be relied on in the next.
-/

namespace Stepwise

variable {ε δ α β σ : Type}

/-- What is true of the value of a calculation, or of its failure if it has no value. -/
def Sound (E : ε → Prop) (P : α → Prop) : Except ε α → Prop
  | .ok a => P a
  | .error e => E e

/-- The calculation has a value, of which something is true. -/
abbrev Total (P : α → Prop) (x : Except Fault α) : Prop := Sound (fun _ => False) P x

/-- The calculation has a value. -/
abbrev Defined (x : Except Fault α) : Prop := Total (fun _ => True) x

/-- A failure that is reported, and not a fault. -/
def Failure.Reported : Failure ε → Prop
  | .fault _ => False
  | .error _ => True

/-- The calculation meets no fault, and if it has a value then something is true of it. -/
abbrev Faultless (P : α → Prop) (x : Except (Failure ε) α) : Prop := Sound Failure.Reported P x

theorem total_iff {P : α → Prop} {x : Except Fault α} :
    Total P x ↔ ∃ a, x = .ok a ∧ P a := by
  cases x <;> simp [Sound]

theorem faultless_iff {P : α → Prop} {x : Except (Failure ε) α} :
    Faultless P x ↔ (∀ fault, x ≠ .error (.fault fault)) ∧ ∀ a, x = .ok a → P a := by
  rcases x with (fault | e) | a <;> simp [Sound, Failure.Reported]

theorem sound_true (x : Except ε α) : Sound (fun _ => True) (fun _ => True) x := by
  cases x <;> trivial

/-! ### One part after the other -/

section Parts

variable {E : ε → Prop} {P : α → Prop} {Q : β → Prop}

theorem Sound.imp {P' : α → Prop} {x : Except ε α} (h : Sound E P x) (hP : ∀ a, P a → P' a) :
    Sound E P' x := by
  cases x with
  | error e => exact h
  | ok a => exact hP a h

/-- **Two parts are sound if the first is, and the second on what the first gives.** -/
theorem Sound.bind {x : Except ε α} {f : α → Except ε β} (hx : Sound E P x)
    (hf : ∀ a, P a → Sound E Q (f a)) : Sound E Q (x >>= f) := by
  cases x with
  | error e => exact hx
  | ok a => exact hf a hx

/-- Second parts that do the same with what a first part gives make the same whole. -/
theorem Sound.bind_congr {x : Except ε α} {f g : α → Except ε β} (hx : Sound E P x)
    (hfg : ∀ a, P a → f a = g a) : (x >>= f) = x >>= g := by
  cases x with
  | error e => rfl
  | ok a => exact hfg a hx

theorem Sound.map {x : Except ε α} {f : α → β} (hx : Sound E P x) (hf : ∀ a, P a → Q (f a)) :
    Sound E Q (x.map f) := by
  cases x with
  | error e => exact hx
  | ok a => exact hf a hx

/-- A calculation that has a value, inside one that may report errors. -/
theorem Total.lift {x : Except Fault α} (h : Total P x) :
    Faultless P (liftM x : Except (Failure ε) α) := by
  cases x with
  | error e => exact h.elim
  | ok a => exact h

/-- Another reading of the errors makes no fault of them. -/
theorem Sound.mapError {x : Except (Failure ε) α} (h : Faultless P x) (f : ε → δ) :
    Faultless P (x.mapError (Failure.map f)) := by
  rcases x with (fault | e) | a
  · exact h.elim
  · trivial
  · exact h

end Parts

/-! ### Part for part of a list -/

section Lists

variable {E : ε → Prop}

/-- The same for every entry of a list. -/
theorem Sound.mapM {Q : β → Prop} {f : α → Except ε β} {l : List α}
    (hf : ∀ a ∈ l, Sound E Q (f a)) :
    Sound E (fun bs => bs.length = l.length ∧ ∀ b ∈ bs, Q b) (l.mapM f) := by
  induction l with
  | nil => exact ⟨rfl, by simp⟩
  | cons a l ih =>
    rw [List.mapM_cons]
    refine (hf a List.mem_cons_self).bind fun b hb => ?_
    refine (ih fun c hc => hf c (List.mem_cons_of_mem a hc)).bind fun bs hbs => ?_
    exact ⟨congrArg (· + 1) hbs.1, List.forall_mem_cons.mpr ⟨hb, hbs.2⟩⟩

/-- What is built up entry by entry, and keeps what every entry keeps. -/
theorem Sound.foldlM {P : β → Prop} {f : β → α → Except ε β} {l : List α}
    (hf : ∀ a ∈ l, ∀ b, P b → Sound E P (f b a)) {b : β} (hb : P b) :
    Sound E P (l.foldlM f b) := by
  induction l generalizing b with
  | nil => exact hb
  | cons a l ih =>
    rw [List.foldlM_cons]
    exact (hf a List.mem_cons_self b hb).bind
      fun c hc => ih (fun d hd => hf d (List.mem_cons_of_mem a hd)) hc

end Lists

/-! ### Round after round -/

/-- **A search is sound if its rounds are**: it has used up its rounds, or its answer is sound. -/
theorem rounds_sound {E : ε → Prop} {P : σ → Prop} {Q : α → Prop}
    {round : Nat → σ → Except ε (Round σ α)}
    (hround : ∀ i s, P s → Sound E (Round.All P Q) (round i s)) (cap first : Nat) (state : σ)
    (hstart : P state) :
    (rounds (fun i s => .orFail (round i s)) cap first state).All P (Sound E Q) := by
  refine rounds_all (fun i s hs => ?_) cap first hstart
  have h := hround i s hs
  rcases hr : round i s with e | next | answer
  · rwa [hr] at h
  · rwa [hr] at h
  · rwa [hr] at h

end Stepwise
