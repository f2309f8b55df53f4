import Stepwise.Descent.Minimiser
import Stepwise.Proofs.Rounds
import Stepwise.Proofs.Observers
import Stepwise.Proofs.Descent.Iterates

/-!
# The course of a descent

One round of a descent can come to four things: the iterate cannot be observed, it is
the last, the way on fails, or the next iterate is reached. They are the constructors of
`Stepwise.Descent.Passage`, and a round is always one of them. A descent reaches
iterate number `n` if `n` rounds of it have ended with the last of these
(`Stepwise.Descent.Reaches`), and a whole descent is a faulty start, or some rounds and
one that ends it, or as many rounds as the cap allows (`Stepwise.Descent.Journey`). So to
compare the descents by two oracles it is enough to compare their rounds at the iterates that
one of them reaches (`Stepwise.Descent.descend_eq_of_next`).

The observer's memory is nobody's business but the observer's. If one memory can be
translated into another so that both observers answer alike, then the two descents
differ by that translation only (`Stepwise.Descent.run_mapObserver`).
-/

namespace Stepwise.Descent

variable {R σ τ : Type} [Scalar R]

/-! ### When a visit is the last -/

/-- A visit is not the last if the gradient is not as good as zero and the observer does
not object. -/
theorem ending?_eq_none {s : Settings R} {e : Visit R} {v : Verdict} :
    e.ending? s v = none ↔ ¬e.gradientNorm ≤ s.epsilon ∧ v = .proceed := by
  by_cases h : e.gradientNorm ≤ s.epsilon
  · simp [Visit.ending?, h]
  · cases v <;> simp [Visit.ending?, h]

/-- The gradient decides first, and the observer only where it does not. -/
theorem ending?_eq_some {s : Settings R} {e : Visit R} {v : Verdict} {ending : Ending} :
    e.ending? s v = some ending ↔
      (e.gradientNorm ≤ s.epsilon ∧ ending = .converged) ∨
        (¬e.gradientNorm ≤ s.epsilon ∧ v = .stop ∧ ending = .stopped) := by
  by_cases h : e.gradientNorm ≤ s.epsilon
  · simp [Visit.ending?, h, eq_comm]
  · cases v <;> simp [Visit.ending?, h, eq_comm]

/-! ### One round -/

/-- What a round of a descent comes to at iterate number `iter`. -/
inductive Passage (f : Oracle R) (s : Settings R) (observer : Observer (Visit R) σ) (iter : Nat)
    (p : Progress R σ) : Round (Progress R σ) (Report R σ) → Prop
  /-- The iterate cannot be observed. -/
  | fault {e : Fault} (hobserve : p.standing.observe f s iter = .error e) :
      Passage f s observer iter p (.done ⟨.error (.fault e), p.observer, p.journal⟩)
  /-- The iterate is the last. -/
  | ending {gradient : Vec R} {e : Visit R} {ending : Ending}
      (hobserve : p.standing.observe f s iter = .ok (gradient, e))
      (hending : e.ending? s (observer p.observer e).1 = some ending) :
      Passage f s observer iter p
        (.done ⟨.ok (e.solution ending), (observer p.observer e).2, p.journal.push e.record⟩)
  /-- The way on fails. -/
  | failure {gradient : Vec R} {e : Visit R} {entries : Journal R} {failure : Failure (Error R)}
      (hobserve : p.standing.observe f s iter = .ok (gradient, e))
      (hending : e.ending? s (observer p.observer e).1 = none)
      (hmove : p.standing.move f s iter gradient = (entries, .error failure)) :
      Passage f s observer iter p
        (.done ⟨.error failure, (observer p.observer e).2, p.journal.push e.record ++ entries⟩)
  /-- The next iterate is reached. -/
  | onward {gradient : Vec R} {e : Visit R} {entries : Journal R} {next : Standing R}
      (hobserve : p.standing.observe f s iter = .ok (gradient, e))
      (hending : e.ending? s (observer p.observer e).1 = none)
      (hmove : p.standing.move f s iter gradient = (entries, .ok next)) :
      Passage f s observer iter p
        (.again ⟨next, (observer p.observer e).2, p.journal.push e.record ++ entries⟩)

/-- **A round comes to one of the four.** -/
theorem passage_iff {f : Oracle R} {s : Settings R} {observer : Observer (Visit R) σ} {iter : Nat}
    {p : Progress R σ} {r : Round (Progress R σ) (Report R σ)} :
    Passage f s observer iter p r ↔ p.next f s observer iter = r := by
  constructor
  · rintro (hobserve | ⟨hobserve, hending⟩ | ⟨hobserve, hending, hmove⟩ |
      ⟨hobserve, hending, hmove⟩) <;> simp only [Progress.next, *]
  · rintro rfl
    -- The cases are those that the round itself distinguishes, in its order.
    cases hobserve : p.standing.observe f s iter with
    | error e =>
      simp only [Progress.next, hobserve]
      exact .fault hobserve
    | ok observed =>
      obtain ⟨gradient, e⟩ := observed
      cases hending : e.ending? s (observer p.observer e).1 with
      | some ending =>
        simp only [Progress.next, hobserve, hending]
        exact .ending hobserve hending
      | none =>
        rcases hmove : p.standing.move f s iter gradient with ⟨entries, failure | next⟩
        · simp only [Progress.next, hobserve, hending, hmove]
          exact .failure hobserve hending hmove
        · simp only [Progress.next, hobserve, hending, hmove]
          exact .onward hobserve hending hmove

/-! ### All rounds -/

section Rounds

variable (f : Oracle R) (s : Settings R) (observer : Observer (Visit R) σ) (memory : σ)
  (x₀ : Vec R)

/-- The descent from `x₀` reaches iterate number `n`, and this is how far it has come. -/
def Reaches (n : Nat) (p : Progress R σ) : Prop :=
  ∃ guide, Guide.start f s.method x₀ = .ok guide ∧
    rounds (Progress.next f s observer) n 0 ⟨⟨x₀, guide⟩, memory, #[]⟩ = .again p

/-- The ways in which a whole descent can go. -/
inductive Journey : Report R σ → Prop
  /-- The starting point already has no gradient. -/
  | start {e : Fault} (hstart : Guide.start f s.method x₀ = .error e) :
      Journey ⟨.error (.fault e), memory, #[]⟩
  /-- It ends at an iterate below the cap. -/
  | last {n : Nat} {p : Progress R σ} {report : Report R σ} (hn : n < s.maxIters)
      (hreach : Reaches f s observer memory x₀ n p)
      (hlast : p.next f s observer n = .done report) : Journey report
  /-- It is cut off by the cap. -/
  | cap {p : Progress R σ} (hreach : Reaches f s observer memory x₀ s.maxIters p) :
      Journey ⟨.error (.error (.notConverged (.method s.method) s.maxIters)), p.observer,
        p.journal⟩

variable {f s observer memory x₀}

theorem Reaches.zero {p : Progress R σ} :
    Reaches f s observer memory x₀ 0 p ↔
      ∃ guide, Guide.start f s.method x₀ = .ok guide ∧ p = ⟨⟨x₀, guide⟩, memory, #[]⟩ := by
  simp [Reaches, eq_comm]

theorem Reaches.succ {n : Nat} {p : Progress R σ} :
    Reaches f s observer memory x₀ (n + 1) p ↔
      ∃ before, Reaches f s observer memory x₀ n before ∧
        before.next f s observer n = .again p := by
  simp only [Reaches, rounds_succ_eq_again, Nat.zero_add]
  constructor
  · rintro ⟨guide, hstart, before, hbefore, hnext⟩
    exact ⟨before, ⟨guide, hstart, hbefore⟩, hnext⟩
  · rintro ⟨before, ⟨guide, hstart, hbefore⟩, hnext⟩
    exact ⟨guide, hstart, before, hbefore, hnext⟩

/-- Whoever the observer is, the descent is at the iterate with the number of rounds. -/
theorem Reaches.iterate_eq {n : Nat} {p : Progress R σ}
    (h : Reaches f s observer memory x₀ n p) : iterate f s x₀ n = .ok p.standing := by
  induction n generalizing p with
  | zero =>
    obtain ⟨guide, hstart, rfl⟩ := Reaches.zero.mp h
    exact iterate_zero_eq_ok.mpr ⟨rfl, hstart⟩
  | succ n ih =>
    obtain ⟨before, hbefore, hnext⟩ := Reaches.succ.mp h
    have hiter := ih hbefore
    cases passage_iff.mpr hnext with
    | onward hobserve hending hmove =>
      -- The gradient that the loop carries along is the one at the iterate.
      obtain ⟨hgradient, -⟩ := observe_iterate hiter hobserve
      rw [iterate_succ hiter, ← move_snd hgradient n, hmove]

/-- **A descent goes one of these ways.** -/
theorem journey_descend (f : Oracle R) (s : Settings R) (observer : Observer (Visit R) σ)
    (memory : σ) (x₀ : Vec R) :
    Journey f s observer memory x₀ (descend f s observer memory x₀) := by
  cases hstart : Guide.start f s.method x₀ with
  | error e =>
    simp only [descend, hstart]
    exact .start hstart
  | ok guide =>
    cases hrounds : rounds (Progress.next f s observer) s.maxIters 0 ⟨⟨x₀, guide⟩, memory, #[]⟩ with
    | again p =>
      simp only [descend, hstart, hrounds]
      exact .cap ⟨guide, hstart, hrounds⟩
    | done report =>
      obtain ⟨n, hn, p, hp, hlast⟩ := rounds_eq_done.mp hrounds
      rw [Nat.zero_add] at hlast
      simp only [descend, hstart, hrounds]
      exact .last hn ⟨guide, hstart, hp⟩ hlast

/-- A descent that ends at an iterate below the cap ends with the report made there. -/
theorem Reaches.descend_eq {n : Nat} {p : Progress R σ} {report : Report R σ}
    (h : Reaches f s observer memory x₀ n p) (hn : n < s.maxIters)
    (hlast : p.next f s observer n = .done report) :
    descend f s observer memory x₀ = report := by
  obtain ⟨guide, hstart, hrounds⟩ := h
  have hdone : rounds (Progress.next f s observer) s.maxIters 0 ⟨⟨x₀, guide⟩, memory, #[]⟩ =
      .done report := rounds_eq_done.mpr ⟨n, hn, p, hrounds, by rwa [Nat.zero_add]⟩
  simp only [descend, hstart, hdone]

/-- A descent that reaches the iterate with the number of the cap is cut off there. -/
theorem Reaches.descend_eq_of_cap {p : Progress R σ}
    (h : Reaches f s observer memory x₀ s.maxIters p) :
    descend f s observer memory x₀ =
      ⟨.error (.error (.notConverged (.method s.method) s.maxIters)), p.observer, p.journal⟩ := by
  obtain ⟨guide, hstart, hrounds⟩ := h
  simp only [descend, hstart, hrounds]

/-- Where the gradient exists, every method can start. -/
theorem exists_guide_of_gradient {gradient : Vec R} (h : f.gradient x₀ = .ok gradient)
    (method : Method) : ∃ guide, Guide.start f method x₀ = .ok guide := by
  cases method with
  | gradientDescent => exact ⟨_, rfl⟩
  | newton => exact ⟨_, rfl⟩
  | quasiNewton => exact ⟨.quasiNewton gradient (Mat.identity x₀.length), by simp [Guide.start, h]⟩

variable (observer memory) in
/-- **A descent ends where it starts** if the gradient is as good as zero there. -/
theorem descend_stationary {gradient : Vec R} {value : R} (hcap : s.maxIters ≠ 0)
    (hgradient : f.gradient x₀ = .ok gradient) (hvalue : f.value x₀ = .ok value)
    (hnorm : gradient.norm ≤ s.epsilon) :
    (descend f s observer memory x₀).outcome =
      .ok ⟨.converged, x₀, value, gradient.norm, 0⟩ := by
  obtain ⟨guide, hstart⟩ := exists_guide_of_gradient hgradient s.method
  have hobserve : (⟨x₀, guide⟩ : Standing R).observe f s 0 =
      .ok (gradient, ⟨s.method, 0, x₀, value, gradient.norm⟩) := by
    simp [Standing.observe, gradient_start hstart, hgradient, hvalue]
  have hround : Passage f s observer 0 ⟨⟨x₀, guide⟩, memory, #[]⟩ _ :=
    .ending hobserve (ending?_eq_some.mpr (.inl ⟨hnorm, rfl⟩))
  obtain ⟨cap, hcap⟩ := Nat.exists_eq_succ_of_ne_zero hcap
  simp only [descend, hstart, hcap]
  rw [rounds_succ_of_done (passage_iff.mp hround)]
  rfl

end Rounds

/-! ### Minimisers -/

theorem oracle_of_check {m : Minimiser R} {objective : Objective R}
    (hcheck : m.settings.check = .ok ()) (hobjective : m.objective? = some objective) :
    m.oracle = .ok (objective.complete m.settings.step) := by
  simp only [Minimiser.oracle, hcheck, hobjective]

/-- A minimisation with an oracle is a descent, and its journal is opened and closed. -/
theorem run_of_oracle {m : Minimiser R} {f : Oracle R} (horacle : m.oracle = .ok f)
    (observer : Observer (Visit R) σ) (memory : σ) (x₀ : Vec R) :
    m.run observer memory x₀ =
      { descend f m.settings observer memory x₀ with
        journal := #[.descentStarted m.settings.method m.settings.search x₀.length] ++
          (descend f m.settings observer memory x₀).journal ++
          Minimiser.closing (descend f m.settings observer memory x₀).outcome } := by
  simp only [Minimiser.run, horacle]

/-! ### Another oracle -/

section Oracles

variable {f f' : Oracle R} {s : Settings R} {observer : Observer (Visit R) σ} {memory : σ}
  {x₀ : Vec R}

/-- **Two descents are the same if they start alike and make the same rounds**, wherever one of
them comes. -/
theorem descend_eq_of_next (hstart : Guide.start f' s.method x₀ = Guide.start f s.method x₀)
    (hnext : ∀ n p, Reaches f s observer memory x₀ n p →
      p.next f' s observer n = p.next f s observer n) :
    descend f' s observer memory x₀ = descend f s observer memory x₀ := by
  cases hguide : Guide.start f s.method x₀ with
  | error e => simp only [descend, hstart, hguide]
  | ok guide =>
    have hrounds : rounds (Progress.next f' s observer) s.maxIters 0
          ⟨⟨x₀, guide⟩, memory, #[]⟩ =
        rounds (Progress.next f s observer) s.maxIters 0 ⟨⟨x₀, guide⟩, memory, #[]⟩ := by
      refine rounds_congr fun n p hp => ?_
      rw [Nat.zero_add]
      exact hnext n p ⟨guide, hguide, hp⟩
    simp only [descend, hstart, hguide, hrounds]

/-- Minimisations of two objectives are the same if the descents are. -/
theorem run_eq_of_descend {m : Minimiser R} {o o' : Objective R}
    (h : descend (o'.complete m.settings.step) m.settings observer memory x₀ =
      descend (o.complete m.settings.step) m.settings observer memory x₀) :
    (m.withObjective o').run observer memory x₀ = (m.withObjective o).run observer memory x₀ := by
  simp only [Minimiser.run, Minimiser.withObjective, Minimiser.oracle]
  cases m.settings.check with
  | error e => rfl
  | ok _ => simp only [h]

end Oracles

/-! ### Another memory -/

/-- The progress with the observer's memory translated. -/
def Progress.mapObserver (g : σ → τ) (p : Progress R σ) : Progress R τ :=
  ⟨p.standing, g p.observer, p.journal⟩

/-- The report with the observer's memory translated. -/
def Report.mapObserver (g : σ → τ) (report : Report R σ) : Report R τ :=
  ⟨report.outcome, g report.observer, report.journal⟩

section Translation

variable {o : Observer (Visit R) σ} {o' : Observer (Visit R) τ} {g : τ → σ}

/-- Observers that answer alike, up to a translation of what they remember, see the same
rounds. -/
theorem next_mapObserver (h : ∀ m e, o (g m) e = ((o' m e).1, g (o' m e).2)) (f : Oracle R)
    (s : Settings R) (iter : Nat) (p : Progress R τ) :
    (p.mapObserver g).next f s o iter =
      (p.next f s o' iter).map (Progress.mapObserver g) (Report.mapObserver g) := by
  obtain ⟨r, hr⟩ : ∃ r, p.next f s o' iter = r := ⟨_, rfl⟩
  rw [hr]
  -- The same way out is open to both, since all it depends on is answered alike.
  cases passage_iff.mpr hr with
  | fault hobserve => exact passage_iff.mp (.fault hobserve)
  | @ending gradient e ending hobserve hending =>
    have hverdict := congrArg Prod.fst (h p.observer e)
    have hpassage : Passage f s o iter (p.mapObserver g) _ :=
      .ending hobserve (hverdict ▸ hending)
    refine (passage_iff.mp hpassage).trans ?_
    simp [Round.map, Report.mapObserver, Progress.mapObserver, h]
  | @failure gradient e entries failure hobserve hending hmove =>
    have hverdict := congrArg Prod.fst (h p.observer e)
    have hpassage : Passage f s o iter (p.mapObserver g) _ :=
      .failure hobserve (hverdict ▸ hending) hmove
    refine (passage_iff.mp hpassage).trans ?_
    simp [Round.map, Report.mapObserver, Progress.mapObserver, h]
  | @onward gradient e entries next hobserve hending hmove =>
    have hverdict := congrArg Prod.fst (h p.observer e)
    have hpassage : Passage f s o iter (p.mapObserver g) _ :=
      .onward hobserve (hverdict ▸ hending) hmove
    refine (passage_iff.mp hpassage).trans ?_
    simp [Round.map, Progress.mapObserver, h]

/-- Observers that answer alike, up to a translation of what they remember, see the same
descent. -/
theorem descend_mapObserver (h : ∀ m e, o (g m) e = ((o' m e).1, g (o' m e).2)) (f : Oracle R)
    (s : Settings R) (memory : τ) (x₀ : Vec R) :
    descend f s o (g memory) x₀ = (descend f s o' memory x₀).mapObserver g := by
  cases hstart : Guide.start f s.method x₀ with
  | error e => simp [descend, hstart, Report.mapObserver]
  | ok guide =>
    have hrounds := rounds_map (next_mapObserver h f s) s.maxIters 0 ⟨⟨x₀, guide⟩, memory, #[]⟩
    simp only [Progress.mapObserver] at hrounds
    simp only [descend, hstart, hrounds]
    cases rounds (Progress.next f s o') s.maxIters 0 ⟨⟨x₀, guide⟩, memory, #[]⟩ <;> rfl

/-- **What an observer remembers, and how, is its own business**: observers that answer
alike, up to a translation of what they remember, see the same minimisation. -/
theorem run_mapObserver (h : ∀ m e, o (g m) e = ((o' m e).1, g (o' m e).2)) (m : Minimiser R)
    (memory : τ) (x₀ : Vec R) :
    m.run o (g memory) x₀ = (m.run o' memory x₀).mapObserver g := by
  cases horacle : m.oracle with
  | error e => simp [Minimiser.run, horacle, Report.mapObserver]
  | ok f =>
    simp only [Minimiser.run, horacle, descend_mapObserver h]
    rfl

/-- An observer that keeps the events sees the same minimisation. -/
theorem run_logging (m : Minimiser R) (o : Observer (Visit R) σ) (memory : σ)
    (log : List (Visit R)) (x₀ : Vec R) :
    m.run o memory x₀ = (m.run o.logging (memory, log) x₀).mapObserver Prod.fst :=
  have h : ∀ (kept : σ × List (Visit R)) (e : Visit R),
      o kept.1 e = ((o.logging kept e).1, (o.logging kept e).2.1) := fun _ _ => rfl
  run_mapObserver (g := Prod.fst) h m (memory, log) x₀

end Translation

end Stepwise.Descent
