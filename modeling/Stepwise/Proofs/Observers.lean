import Stepwise.Observer

/-!
# What an observer hears

An observer is told one event after the other. What it remembers after a list of
events, and what it answered to them, are both functions of the list; the run that
delivers the events plays no part in that.

To find out which events a run delivers one would look over the observer's shoulder.
`Stepwise.Observer.logging` does so: it answers like the observer it belongs to, and
keeps every event it is told. A run that cannot tell the two apart delivers to one
what it delivers to the other.

To find out what a run would have done without its observer's objections, one would ask
an observer that remembers the same but never objects. That is
`Stepwise.Observer.patient`: the two runs go through the same states until the first
objection.
-/

namespace Stepwise

namespace Observer

variable {ε σ : Type} (o : Observer ε σ)

/-! ### Memory and answers -/

/-- What the observer remembers after some events. -/
def after (memory : σ) (events : List ε) : σ := events.foldl (fun m e => (o m e).2) memory

/-- What the observer answers to each of some events. -/
def answers (memory : σ) : List ε → List Verdict
  | [] => []
  | e :: events => (o memory e).1 :: answers (o memory e).2 events

variable {memory : σ} {events : List ε} {e : ε}

@[simp] theorem after_nil : o.after memory [] = memory := rfl

@[simp] theorem after_concat :
    o.after memory (events ++ [e]) = (o (o.after memory events) e).2 := by
  simp [after]

@[simp] theorem answers_nil : o.answers memory [] = [] := rfl

@[simp] theorem length_answers : (o.answers memory events).length = events.length := by
  induction events generalizing memory with
  | nil => rfl
  | cons e events ih => exact congrArg (· + 1) ih

/-- The answer to the last event is given with all the others in mind. -/
theorem answers_concat :
    o.answers memory (events ++ [e]) =
      o.answers memory events ++ [(o (o.after memory events) e).1] := by
  induction events generalizing memory with
  | nil => rfl
  | cons d events ih => exact congrArg ((o memory d).1 :: ·) ih

variable {o} in
/-- An observer that lets the run go on at every event has not objected. -/
theorem stop_notMem (hproceed : ∀ v ∈ o.answers memory events, v = .proceed) :
    .stop ∉ o.answers memory events :=
  fun hstop => Verdict.noConfusion (hproceed .stop hstop)

variable {o} in
/-- It has objected to no event in particular. -/
theorem ne_stop (hproceed : ∀ v ∈ o.answers memory events, v = .proceed) (i : Nat) :
    (o.answers memory events)[i]? ≠ some .stop :=
  fun hstop => stop_notMem hproceed (List.mem_of_getElem? hstop)

variable {o} in
/-- An observer that has not objected before can object to the last event only. -/
theorem eq_length_of_stop (hproceed : ∀ v ∈ o.answers memory events, v = .proceed) {i : Nat}
    (hstop : (o.answers memory (events ++ [e]))[i]? = some .stop) :
    i = events.length ∧ (o (o.after memory events) e).1 = .stop := by
  rw [answers_concat] at hstop
  rcases Nat.lt_trichotomy i (o.answers memory events).length with hlt | rfl | hgt
  · rw [List.getElem?_append_left hlt] at hstop
    exact absurd hstop (ne_stop hproceed i)
  · rw [List.getElem?_concat_length] at hstop
    exact ⟨o.length_answers, Option.some.inj hstop⟩
  · rw [List.getElem?_eq_none (by simpa using Nat.succ_le_of_lt hgt)] at hstop
    exact nomatch hstop

/-! ### Keeping the events -/

/-- The observer that answers likewise and keeps every event, the oldest first. -/
def logging : Observer ε (σ × List ε) := fun m e =>
  ((o m.1 e).1, ((o m.1 e).2, m.2 ++ [e]))

@[simp] theorem logging_verdict (m : σ × List ε) : (o.logging m e).1 = (o m.1 e).1 := rfl

@[simp] theorem logging_memory (m : σ × List ε) :
    (o.logging m e).2 = ((o m.1 e).2, m.2 ++ [e]) := rfl

/-! ### Observers that never object -/

/-- The observer lets every run go on. -/
def Silent : Prop := ∀ m e, (o m e).1 = .proceed

variable {o} in
/-- It gives no other answer. -/
theorem Silent.proceed (h : o.Silent) {v : Verdict} (hv : v ∈ o.answers memory events) :
    v = .proceed := by
  induction events generalizing memory with
  | nil => exact nomatch hv
  | cons e events ih =>
    rcases List.mem_cons.mp hv with rfl | hv
    · exact h memory e
    · exact ih hv

/-- The observer that remembers likewise and never objects. -/
def patient : Observer ε σ := fun m e => (.proceed, (o m e).2)

theorem silent_silent : Silent (silent (ε := ε)) := fun _ _ => rfl

end Observer

end Stepwise
