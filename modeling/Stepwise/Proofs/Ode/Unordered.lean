import Stepwise.Proofs.Doubles.Units
import Stepwise.Proofs.Ode.Queries

/-!
# Queries among samples in any order

Nothing is asked of samples before a query: their times may go up and down, repeat, or be
undefined. There is then no boundary between the samples that are earlier than the time and the
others, and halving may pass over many places at which it could have stopped. Still it always has
two places with a change between them. Its base is a place where `before` holds, unless it has
never moved; and `before` fails at the end of its range or at the last place of it. Both are true
at the start because of the two comparisons with the ends of the recorded span, each halving keeps
them, and when one place is left they are about neighbours
(`Stepwise.Ode.Trajectory.halve_crossing`).

So a query finds a sample that is not earlier than its time, though perhaps not the first one, and
the sample before it is earlier (`Stepwise.Ode.Trajectory.firstNot_crossing`). It never asks for a
sample that there is not, and between samples of one dimension there is a state
(`Stepwise.Ode.stateAt_unordered`).
-/

namespace Stepwise.Ode

/-! ### Places with a change between them -/

namespace Trajectory

variable {before : Nat → Bool}

/-- **Halving arrives at a change**: `before` holds at the place where it arrives unless it has
never moved, and if it holds there then it fails at the next place. -/
theorem halve_crossing {base count : Nat} (hcount : 0 < count)
    (hlow : base = 0 ∨ before base = true)
    (hhigh : before (base + count) = false ∨ before (base + count - 1) = false) :
    (halve before base count = 0 ∨ before (halve before base count) = true) ∧
      (before (halve before base count) = true →
        before (halve before base count + 1) = false) := by
  induction count using Nat.strong_induction_on generalizing base with
  | h count ih =>
    rw [halve]
    split_ifs with hone
    · obtain rfl : count = 1 := by omega
      refine ⟨hlow, fun hbase => hhigh.resolve_right ?_⟩
      rw [Nat.add_sub_cancel, hbase]
      exact Bool.noConfusion
    dsimp only
    split
    · rename_i hmiddle
      -- The end of the range stays where it is.
      have hend : base + count / 2 + (count - count / 2) = base + count := by omega
      exact ih (count - count / 2) (by omega) (by omega) (.inr hmiddle) (by rwa [hend])
    · rename_i hmiddle
      have hfails := Bool.eq_false_iff.mpr hmiddle
      -- The place half-way is the new end, or the last place if the number of places was odd.
      refine ih (count - count / 2) (by omega) (by omega) hlow ?_
      rcases Nat.mod_two_eq_zero_or_one count with heven | hodd
      · left
        rwa [show base + (count - count / 2) = base + count / 2 by omega]
      · right
        rwa [show base + (count - count / 2) - 1 = base + count / 2 by omega]

/-- **The place found is a change**: `before` fails there, and it holds at the place before, if
there is one. -/
theorem firstNot_crossing {count : Nat} (hcount : 0 < count)
    (hlast : before (count - 1) = false) :
    before (firstNot before count) = false ∧
      (firstNot before count = 0 ∨ before (firstNot before count - 1) = true) := by
  have hends : before (0 + count) = false ∨ before (0 + count - 1) = false := by
    rw [Nat.zero_add]
    exact .inr hlast
  obtain ⟨hlow, hhigh⟩ := halve_crossing hcount (.inl rfl) hends
  rw [firstNot, if_neg hcount.ne']
  dsimp only
  split
  · rename_i hbase
    exact ⟨hhigh hbase, .inr hbase⟩
  · rename_i hbase
    exact ⟨Bool.eq_false_iff.mpr hbase, hlow.imp_right fun hholds => absurd hholds hbase⟩

end Trajectory

/-! ### Samples in any order -/

section Samples

variable {R : Type} [Scalar R] {h : Trajectory R} {time : R} {i : Nat} {sample : Sample R}

theorem Trajectory.isEarlier_eq_true_iff :
    h.isEarlier time i = true ↔ ∃ sample, h.samples[i]? = some sample ∧ sample.time < time := by
  rw [Trajectory.isEarlier]
  cases h.samples[i]? <;> simp

theorem Trajectory.isEarlier_eq_false_iff (hsample : h.samples[i]? = some sample) :
    h.isEarlier time i = false ↔ ¬sample.time < time := by
  simp [Trajectory.isEarlier, hsample]

end Samples

/-- **A query in the recorded span is answered, whatever the order of the samples.** The times may
go up and down, repeat or be undefined; if the time is not before the first sample and not after
the last, the place found is that of a sample, which is not earlier than the time, while the one
before it is; and there is a state, as long as those recorded. -/
theorem stateAt_unordered {h : Trajectory Float} {n : Nat} {first last : Sample Float}
    {time : Float} (huniform : Uniform n h) (hfirst : h.first? = some first)
    (hlast : h.last? = some last) (hlow : first.time ≤ time) (hhigh : time ≤ last.time) :
    ∃ place, Trajectory.firstNot (h.isEarlier time) h.size = place ∧ place < h.size ∧
      (∃ r, h.samples[place]? = some r ∧ ¬r.time < time) ∧
      (place = 0 ∨ ∃ l, h.samples[place - 1]? = some l ∧ l.time < time) ∧
      ∃ state, h.stateAt time = .ok state ∧ state.length = n := by
  have hnot : ¬last.time < time := fun hlt =>
    (Double.lt_iff.mp hlt).2.2.not_ge (Double.le_iff.mp hhigh).2.2
  have hpos : 0 < h.size := (Array.getElem?_eq_some_iff.mp hfirst).1
  have hend : h.isEarlier time (h.size - 1) = false :=
    (Trajectory.isEarlier_eq_false_iff (Array.back?_eq_getElem?.symm.trans hlast)).mpr hnot
  have hplace := Trajectory.firstNot_lt hpos hend
  obtain ⟨hhere, hbefore⟩ := Trajectory.firstNot_crossing hpos hend
  have hsample := Array.getElem?_eq_getElem hplace
  exact ⟨_, rfl, hplace, ⟨_, hsample, (Trajectory.isEarlier_eq_false_iff hsample).mp hhere⟩,
    hbefore.imp_right Trajectory.isEarlier_eq_true_iff.mp,
    exists_stateAt huniform hfirst hlast hlow hhigh hnot⟩

/-- Seven samples whose times go up and down, one of them repeated and two of them undefined. -/
def jumbled : Trajectory Float :=
  ⟨#[⟨[0], 1⟩, ⟨[1], 5⟩, ⟨[2], 0 / 0⟩, ⟨[3], -4⟩, ⟨[4], 0 / 0⟩, ⟨[5], 1⟩, ⟨[6], 3⟩]⟩

/-- Among them the time two is found at the last sample, though it lies between the first two. -/
theorem stateAt_unordered_jumbled :
    Uniform 1 jumbled ∧ Trajectory.firstNot (jumbled.isEarlier 2) jumbled.size = 6 ∧
      ∃ state, jumbled.stateAt 2 = .ok state ∧ state.length = 1 := by
  have huniform : Uniform 1 jumbled := by
    simp [Uniform, jumbled]
  have hfirst : jumbled.first? = some ⟨[0], 1⟩ := rfl
  have hlast : jumbled.last? = some ⟨[6], 3⟩ := rfl
  have hlow : (1 : Float) ≤ 2 := by decide +kernel
  have hhigh : (2 : Float) ≤ 3 := by decide +kernel
  obtain ⟨_, -, -, -, -, hstate⟩ := stateAt_unordered huniform hfirst hlast hlow hhigh
  exact ⟨huniform, by decide +kernel, hstate⟩

end Stepwise.Ode
