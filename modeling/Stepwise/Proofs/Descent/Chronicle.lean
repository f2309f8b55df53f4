import Mathlib.Data.List.Forall2
import Stepwise.Proofs.Descent.Account

/-!
# What the journal of a descent tells

A descent notes three things on its way: every iterate that it reaches, every line search along a
ray that ended, and an update that broke down. What it notes about an iterate that it leaves
behind is a chapter of the journal (`Stepwise.Descent.chapter`): the iterate as the observer is
told of it, and the end of the search from there, if there was one along a ray. A chapter is known
from the number of the iterate; no observer, cap or loop plays a part in it.

The invariant is that a descent that has reached iterate number `n` has written the chapters of
the events that it has delivered, and nothing else (`Stepwise.Descent.Reaches.journal_eq`). When it
ends, the chapters are those of the iterates from which a search was begun
(`Stepwise.Descent.departures`), and what follows is one of three codas, `Stepwise.Descent.Coda`:
the iterate that is a solution, nothing if there is no way on, or the update that breaks down after
the last search. What the journal tells of the events and of the searches
(`Stepwise.Descent.Chronicle`) is read off from the chapters and the coda.
-/

namespace Stepwise.Descent

variable {R σ : Type} [Scalar R]

/-! ### Line searches and their entries -/

section Entries

variable (f : Oracle R) (s : Settings R) (x₀ : Vec R)

/-- Where the line search from iterate number `n` lands. -/
def landing (n : Nat) : Except (Failure (Error R)) (Landing R) := do
  let here ← iterate f s x₀ n
  let gradient ← f.gradient here.point
  here.land f s gradient

/-- Where the line searches from some iterates land, as far as they do. -/
def landings (events : List (Visit R)) : List (Landing R) :=
  events.filterMap fun e => (landing f s x₀ e.iter).toOption

/-- What is noted about an iterate and the line search from there. -/
def chapter (e : Visit R) : List (Record R) :=
  e.record :: (landing f s x₀ e.iter).toOption.elim [] fun l => (l.journal s.search).toList

variable {f s x₀} {x p : Vec R} {here : Standing R} {gradient : Vec R} {landed : Landing R}
  {n : Nat} {e : Visit R}

theorem landing_eq (hiter : iterate f s x₀ n = .ok here)
    (hgradient : f.gradient here.point = .ok gradient) :
    landing f s x₀ n = here.land f s gradient := by
  simp only [landing, hiter, ok_bind, lift_eq_ofFault, hgradient, Failure.ofFault_ok]

/-- The trivial line search has no end along a ray. -/
theorem hit?_of_trivial (hsearch : s.search = .trivial) (h : lineSearch f s x p = .ok landed) :
    landed.hit? = none := by
  simp only [lineSearch, hsearch] at h
  obtain ⟨point, -, hlanded⟩ := bind_eq_ok.mp h
  cases hlanded
  rfl

/-- **Every other line search ends along a ray.** -/
theorem exists_hit_of_ne_trivial (hsearch : s.search ≠ .trivial)
    (h : lineSearch f s x p = .ok landed) : ∃ hit, landed.hit? = some hit := by
  have halong : ∃ find, landAlong find s x p = .ok landed := by
    cases hs : s.search with
    | trivial => exact absurd hs hsearch
    | _ =>
      simp only [lineSearch, hs] at h
      exact ⟨_, h⟩
  obtain ⟨find, halong⟩ := halong
  obtain ⟨ray, hit, point, -, -, -, rfl⟩ := landAlong_eq_ok.mp halong
  exact ⟨hit, rfl⟩

/-- A line search of a descent that lands is one of the settings. -/
theorem lineSearch_of_landing (h : landing f s x₀ n = .ok landed) :
    ∃ x p, lineSearch f s x p = .ok landed := by
  obtain ⟨here, -, h⟩ := bind_eq_ok.mp h
  obtain ⟨gradient, -, h⟩ := bind_eq_ok.mp h
  obtain ⟨direction, -, h⟩ := bind_eq_ok.mp h
  exact ⟨here.point, direction, h⟩

theorem chapter_of_error {failure : Failure (Error R)}
    (h : landing f s x₀ e.iter = .error failure) : chapter f s x₀ e = [e.record] := by
  simp [chapter, h, Except.toOption]

theorem chapter_of_ok (h : landing f s x₀ e.iter = .ok landed) :
    chapter f s x₀ e = e.record :: (landed.journal s.search).toList := by
  simp [chapter, h, Except.toOption]

end Entries

/-! ### Chapters -/

/-- The entry about a line search that ended along a ray. -/
inductive Searched (search : LineSearch) : Landing R → Record R → Prop
  /-- It names the search, the round and the parameter. -/
  | intro (point : Vec R) (hit : Hit R) :
      Searched search ⟨point, some hit⟩ (.searchConverged search hit.iter hit.t)

section Chapters

variable (f : Oracle R) (s : Settings R) (x₀ : Vec R) (e : Visit R) (events : List (Visit R))

/-- **A chapter has one entry or two**: there is a second one for every search that lands, unless
it is the trivial one. -/
theorem chapter_cases :
    (chapter f s x₀ e = [e.record] ∧
        (s.search = .trivial ∨ (landing f s x₀ e.iter).toOption = none)) ∨
      s.search ≠ .trivial ∧ ∃ landed r, (landing f s x₀ e.iter).toOption = some landed ∧
        chapter f s x₀ e = [e.record, r] ∧ Searched s.search landed r := by
  cases hland : landing f s x₀ e.iter with
  | error failure => exact .inl ⟨chapter_of_error hland, .inr rfl⟩
  | ok landed =>
    rw [chapter_of_ok hland]
    obtain ⟨x, p, hsearch⟩ := lineSearch_of_landing hland
    obtain ⟨point, hit?⟩ := landed
    by_cases htrivial : s.search = .trivial
    · obtain rfl := hit?_of_trivial htrivial hsearch
      exact .inl ⟨rfl, .inl htrivial⟩
    · obtain ⟨hit, rfl⟩ := exists_hit_of_ne_trivial htrivial hsearch
      exact .inr ⟨htrivial, _, _, rfl, rfl, .intro point hit⟩

/-- The iterates noted are those of the chapters. -/
theorem iterates_chapters :
    (events.flatMap (chapter f s x₀)).filter (·.message = "iterate") =
      events.map Visit.record := by
  induction events with
  | nil => rfl
  | cons e events ih =>
    have hchapter : (chapter f s x₀ e).filter (·.message = "iterate") = [e.record] := by
      rcases chapter_cases f s x₀ e with ⟨hone, -⟩ | ⟨-, landed, r, -, htwo, hr⟩
      · rw [hone]
        rfl
      · rw [htwo]
        cases hr
        rfl
    rw [List.flatMap_cons, List.filter_append, hchapter, ih]
    rfl

variable {f s x₀ events}

/-- No search is noted if all are trivial. -/
theorem searches_chapters_trivial (hsearch : s.search = .trivial) :
    (events.flatMap (chapter f s x₀)).filter (·.message = "line search converged") = [] := by
  induction events with
  | nil => rfl
  | cons e events ih =>
    obtain ⟨hone, -⟩ := (chapter_cases f s x₀ e).resolve_right fun h => h.1 hsearch
    rw [List.flatMap_cons, List.filter_append, hone, ih]
    rfl

/-- Otherwise there is one entry for every search that lands, in order. -/
theorem searches_chapters (hsearch : s.search ≠ .trivial) :
    List.Forall₂ (Searched s.search) (landings f s x₀ events)
      ((events.flatMap (chapter f s x₀)).filter (·.message = "line search converged")) := by
  induction events with
  | nil => exact .nil
  | cons e events ih =>
    rw [List.flatMap_cons, List.filter_append]
    rcases chapter_cases f s x₀ e with ⟨hone, hnone⟩ | ⟨-, landed, r, hland, htwo, hr⟩
    · have hskip : landings f s x₀ (e :: events) = landings f s x₀ events :=
        List.filterMap_cons_none (hnone.resolve_left hsearch)
      rw [hskip, hone]
      exact ih
    · have hkeep : landings f s x₀ (e :: events) = landed :: landings f s x₀ events :=
        List.filterMap_cons_some hland
      rw [hkeep, htwo]
      cases hr with
      | intro point hit => exact .cons (.intro point hit) ih

/-- Nothing else is noted. -/
theorem message_of_mem_chapters {r : Record R} (hr : r ∈ events.flatMap (chapter f s x₀)) :
    r.message = "iterate" ∨ r.message = "line search converged" := by
  obtain ⟨e, -, hr⟩ := List.mem_flatMap.mp hr
  rcases chapter_cases f s x₀ e with ⟨hone, -⟩ | ⟨-, landed, r', -, htwo, hr'⟩
  · rw [hone, List.mem_singleton] at hr
    exact .inl (hr ▸ rfl)
  · rw [htwo, List.mem_pair] at hr
    rcases hr with rfl | rfl
    · exact .inl rfl
    · cases hr'
      exact .inr rfl

variable (f s x₀ events) in
/-- So no chapter tells of an update. -/
theorem updates_chapters :
    (events.flatMap (chapter f s x₀)).filter (·.message = "BFGS update broke down") = [] := by
  refine List.filter_eq_nil_iff.mpr fun r hr => ?_
  rcases message_of_mem_chapters hr with h | h <;> simp [h]

end Chapters

/-! ### One round -/

section Moves

variable {f : Oracle R} {s : Settings R} {here next : Standing R} {gradient : Vec R}
  {entries : Journal R} {e : Failure (Error R)} {n : Nat}

/-- The way to the next iterate notes how the line search ended. -/
theorem journal_of_move_ok (h : here.move f s n gradient = (entries, .ok next)) :
    ∃ landed, here.land f s gradient = .ok landed ∧ entries = landed.journal s.search := by
  rw [Standing.move] at h
  cases hland : here.land f s gradient with
  | error failure =>
    rw [hland] at h
    cases h
  | ok landed =>
    rw [hland] at h
    cases hfollow : here.guide.follow f here.point landed.point with
    | error failure =>
      simp only [hfollow] at h
      cases h
    | ok guide =>
      simp only [hfollow] at h
      cases h
      exact ⟨landed, rfl, rfl⟩

/-- A way that fails notes nothing, or how the line search ended and what broke down after it. -/
theorem journal_of_move_error (h : here.move f s n gradient = (entries, .error e)) :
    (here.land f s gradient = .error e ∧ entries = #[]) ∨
      ∃ landed failure, here.land f s gradient = .ok landed ∧ e = failure.map .breakdown ∧
        entries = landed.journal s.search ++ followJournal n failure := by
  rw [Standing.move] at h
  cases hland : here.land f s gradient with
  | error failure =>
    rw [hland] at h
    cases h
    exact .inl ⟨rfl, rfl⟩
  | ok landed =>
    rw [hland] at h
    cases hfollow : here.guide.follow f here.point landed.point with
    | ok guide =>
      simp only [hfollow] at h
      cases h
    | error failure =>
      simp only [hfollow] at h
      cases h
      exact .inr ⟨landed, failure, rfl, rfl, rfl⟩

end Moves

/-! ### All rounds -/

section Rounds

variable {f : Oracle R} {s : Settings R} {x₀ : Vec R} {observer : Observer (Visit R) σ}
  {memory : σ}

/-- A visit carries its number. -/
theorem iter_of_visit {n : Nat} {e : Visit R} (h : visit f s x₀ n = .ok e) : e.iter = n := by
  obtain ⟨_, _, _, -, -, -, rfl⟩ := visit_eq_ok.mp h
  rfl

/-- **A descent that reaches an iterate has written the chapters of its events.** -/
theorem Reaches.journal_eq {n : Nat} {p : Progress R (σ × List (Visit R))}
    (h : Reaches f s observer.logging (memory, []) x₀ n p) :
    p.journal.toList = p.observer.2.flatMap (chapter f s x₀) := by
  induction n generalizing p with
  | zero =>
    obtain ⟨guide, -, rfl⟩ := Reaches.zero.mp h
    rfl
  | succ n ih =>
    obtain ⟨before, hbefore, hnext⟩ := Reaches.succ.mp h
    cases passage_iff.mpr hnext with
    | onward hobserve hending hmove =>
      obtain ⟨hgradient, hvisit⟩ := observe_iterate hbefore.iterate_eq hobserve
      obtain ⟨landed, hland, rfl⟩ := journal_of_move_ok hmove
      rw [← landing_eq hbefore.iterate_eq hgradient, ← iter_of_visit hvisit] at hland
      simp [ih hbefore, chapter_of_ok hland]

/-- The events at the iterates from which a line search was begun: all of them, unless the last is
a solution. -/
def departures (events : List (Visit R)) :
    Except (Failure (Error R)) (Solution R) → List (Visit R)
  | .ok _ => events.dropLast
  | .error _ => events

/-- What is noted after the chapters, for every way to end that is reported. -/
inductive Coda : List (Visit R) → Except (Failure (Error R)) (Solution R) → List (Record R) → Prop
  /-- The last iterate is a solution. It is noted, and there is no search from there. -/
  | found (events : List (Visit R)) (e : Visit R) (ending : Ending) :
      Coda (events ++ [e]) (.ok (e.solution ending)) [e.record]
  /-- There is no way on from the last iterate, or the cap is reached. -/
  | failed (events : List (Visit R)) (error : Error R) : Coda events (.error (.error error)) []
  /-- The update after the last search breaks down. -/
  | broken (events : List (Visit R)) (e : Visit R) (breakdown : Breakdown R) :
      Coda (events ++ [e]) (.error (.error (.breakdown breakdown)))
        [.updateFailed e.iter breakdown]

/-- **A descent that ends without a fault has written its chapters and a coda.** -/
theorem Journey.exists_coda {report : Report R (σ × List (Visit R))}
    (h : Journey f s observer.logging (memory, []) x₀ report)
    (hreturns : ∀ fault, report.outcome ≠ .error (.fault fault)) :
    ∃ coda, Coda report.observer.2 report.outcome coda ∧ report.journal.toList =
      (departures report.observer.2 report.outcome).flatMap (chapter f s x₀) ++ coda := by
  cases h with
  | start hstart => exact absurd rfl (hreturns _)
  | cap hreach => exact ⟨_, .failed _ _, by simp [departures, hreach.journal_eq]⟩
  | @last n p _ hn hreach hlast =>
    cases passage_iff.mpr hlast with
    | fault hobserve => exact absurd rfl (hreturns _)
    | @ending gradient e ending hobserve hending =>
      exact ⟨_, .found _ e ending, by simp [departures, hreach.journal_eq]⟩
    | @failure gradient e entries failure hobserve hending hmove =>
      obtain ⟨hgradient, hvisit⟩ := observe_iterate hreach.iterate_eq hobserve
      have hlanding := landing_eq (s := s) hreach.iterate_eq hgradient
      obtain rfl := iter_of_visit hvisit
      rcases journal_of_move_error hmove with ⟨hland, rfl⟩ | ⟨landed, cause, hland, rfl, rfl⟩
      · -- There is no way on, so the last chapter has the iterate only.
        have hchapter := chapter_of_error (hlanding.trans hland)
        cases failure with
        | fault fault => exact absurd rfl (hreturns fault)
        | error error =>
          exact ⟨_, .failed _ error, by simp [departures, hreach.journal_eq, hchapter]⟩
      · -- The search has landed, and its end is in the last chapter.
        have hchapter := chapter_of_ok (hlanding.trans hland)
        cases cause with
        | fault fault => exact absurd rfl (hreturns fault)
        | error breakdown =>
          exact ⟨_, .broken _ e breakdown,
            by simp [departures, hreach.journal_eq, hchapter, followJournal]⟩

end Rounds

/-! ### The account -/

/-- What a minimisation notes after its first entry agrees with its events and its outcome. -/
structure Chronicle (f : Oracle R) (s : Settings R) (x₀ : Vec R) (events : List (Visit R))
    (outcome : Except (Failure (Error R)) (Solution R)) (middle : List (Record R))
    (closing : Record R) : Prop where
  /-- Only iterates, line searches and updates are noted in between. -/
  kinds : ∀ r ∈ middle, r.message = "iterate" ∨ r.message = "line search converged" ∨
    r.message = "BFGS update broke down"
  /-- The iterates noted are the events, in order. -/
  iterates : middle.filter (·.message = "iterate") =
    events.map fun e => .iterate e.method e.iter e.objective e.gradientNorm
  /-- Trivial line searches are not noted. -/
  unsearched : s.search = .trivial → middle.filter (·.message = "line search converged") = []
  /-- Of the others there is one entry for each that has landed, in order. -/
  searches : s.search ≠ .trivial →
    List.Forall₂ (Searched s.search) (landings f s x₀ (departures events outcome))
      (middle.filter (·.message = "line search converged"))
  /-- An update that breaks down is noted once, and it is what the descent has failed of. -/
  update : middle.filter (·.message = "BFGS update broke down") = [] ∨
    ∃ e breakdown, events.getLast? = some e ∧
      outcome = .error (.error (.breakdown breakdown)) ∧
      middle.filter (·.message = "BFGS update broke down") = [.updateFailed e.iter breakdown]
  /-- The last entry tells the solution, if there is one. -/
  finished : ∀ sol, outcome = .ok sol →
    closing = .descentFinished sol.ending sol.iters sol.objective sol.gradientNorm
  /-- Otherwise it tells the error. -/
  failed : ∀ e, outcome = .error (.error e) → closing = .descentFailed e

section Codas

variable {f : Oracle R} {s : Settings R} {x₀ : Vec R} {events : List (Visit R)}
  {outcome : Except (Failure (Error R)) (Solution R)} {coda : List (Record R)}

omit [Scalar R] in
/-- The iterate that a coda notes is the one that no search was begun from. -/
theorem Coda.iterates (h : Coda events outcome coda) :
    (departures events outcome).map Visit.record ++ coda.filter (·.message = "iterate") =
      events.map Visit.record := by
  cases h with
  | found events e ending =>
    rw [departures, List.dropLast_concat, List.map_append]
    rfl
  | failed events error => exact List.append_nil _
  | broken events e breakdown => exact List.append_nil _

omit [Scalar R] in
/-- A coda notes no search. -/
theorem Coda.searches (h : Coda events outcome coda) :
    coda.filter (·.message = "line search converged") = [] := by
  cases h <;> rfl

omit [Scalar R] in
theorem Coda.kinds (h : Coda events outcome coda) {r : Record R} (hr : r ∈ coda) :
    r.message = "iterate" ∨ r.message = "BFGS update broke down" := by
  cases h with
  | found events e ending =>
    rw [List.mem_singleton.mp hr]
    exact .inl rfl
  | failed events error => exact nomatch hr
  | broken events e breakdown =>
    rw [List.mem_singleton.mp hr]
    exact .inr rfl

omit [Scalar R] in
/-- The update that a coda notes is what the descent has failed of. -/
theorem Coda.update (h : Coda events outcome coda) :
    coda.filter (·.message = "BFGS update broke down") = [] ∨
      ∃ e breakdown, events.getLast? = some e ∧
        outcome = .error (.error (.breakdown breakdown)) ∧
        coda.filter (·.message = "BFGS update broke down") = [.updateFailed e.iter breakdown] := by
  cases h with
  | found events e ending => exact .inl rfl
  | failed events error => exact .inl rfl
  | broken events e breakdown => exact .inr ⟨e, breakdown, List.getLast?_concat, rfl, rfl⟩

omit [Scalar R] in
/-- After a coda there is a last entry, which tells the outcome. -/
theorem Coda.exists_closing (h : Coda events outcome coda) :
    ∃ closing, Minimiser.closing outcome = #[closing] ∧
      (∀ sol, outcome = .ok sol →
        closing = .descentFinished sol.ending sol.iters sol.objective sol.gradientNorm) ∧
      ∀ e, outcome = .error (.error e) → closing = .descentFailed e := by
  cases h with
  | found events e ending =>
    refine ⟨_, rfl, fun sol hsol => ?_, nofun⟩
    cases hsol
    rfl
  | failed events error =>
    refine ⟨_, rfl, nofun, fun e he => ?_⟩
    cases he
    rfl
  | broken events e breakdown =>
    refine ⟨_, rfl, nofun, fun e he => ?_⟩
    cases he
    rfl

/-- **Chapters and a coda are an account of the events and the outcome.** -/
theorem Coda.exists_chronicle (h : Coda events outcome coda) :
    ∃ closing, Minimiser.closing outcome = #[closing] ∧
      Chronicle f s x₀ events outcome
        ((departures events outcome).flatMap (chapter f s x₀) ++ coda) closing := by
  obtain ⟨closing, hclosing, hfinished, hfailed⟩ := h.exists_closing
  refine ⟨closing, hclosing, ?_, ?_, fun hsearch => ?_, fun hsearch => ?_, ?_, hfinished, hfailed⟩
  · intro r hr
    rcases List.mem_append.mp hr with hr | hr
    · exact (message_of_mem_chapters hr).imp_right .inl
    · exact (h.kinds hr).imp_right .inr
  · rw [List.filter_append, iterates_chapters, h.iterates]
    rfl
  · rw [List.filter_append, searches_chapters_trivial hsearch, h.searches, List.append_nil]
  · rw [List.filter_append, h.searches, List.append_nil]
    exact searches_chapters hsearch
  · rw [List.filter_append, updates_chapters, List.nil_append]
    exact h.update

end Codas

/-- **The journal of a minimisation that ends without a fault tells its events and its outcome.** -/
theorem exists_chronicle_run {m : Minimiser R} {objective : Objective R}
    {observer : Observer (Visit R) σ} {memory : σ} {x₀ : Vec R}
    (hcheck : m.settings.check = .ok ()) (hobjective : m.objective? = some objective)
    (hreturns : ∀ fault, (m.run observer memory x₀).outcome ≠ .error (.fault fault)) :
    ∃ middle closing, (m.run observer memory x₀).journal.toList =
        .descentStarted m.settings.method m.settings.search x₀.length :: middle ++ [closing] ∧
      Chronicle (objective.complete m.settings.step) m.settings x₀ (m.events observer memory x₀)
        (m.run observer memory x₀).outcome middle closing := by
  have horacle := oracle_of_check hcheck hobjective
  rw [run_logging m observer memory [] x₀, run_of_oracle horacle] at hreturns ⊢
  rw [Minimiser.events, run_of_oracle horacle]
  have hjourney := journey_descend (objective.complete m.settings.step) m.settings
    observer.logging (memory, []) x₀
  obtain ⟨coda, hcoda, hjournal⟩ := hjourney.exists_coda hreturns
  obtain ⟨closing, hclosing, hchronicle⟩ := hcoda.exists_chronicle
  refine ⟨_, closing, ?_, hchronicle⟩
  simp [Report.mapObserver, hjournal, hclosing]

end Stepwise.Descent
