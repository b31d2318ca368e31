import FiniteDomain.Proofs.Engine.Requests

/-!
# The answers of an engine

Whatever valid requests came before, an engine without an objective finds a solution exactly if
there is one, and with an objective it finds a best one. The requests that were ignored because
the engine was infeasible already count like all others.
-/

namespace FiniteDomain.Engine

open Request

variable {requests : List Request} {e e' : Engine} {outcome : Statistics}
  {found : List (Array Int)} {values : Array Int} {a b : Valuation} {v : View}
  {direction : Direction}

/-- An engine after lawful requests, and what it has found. -/
structure Answered (requests : List Request) (e e' : Engine) (outcome : Statistics)
    (found : List (Array Int)) : Prop where
  run_eq : run requests {} = .ok () e
  solve_eq : Running.solve e = .ok outcome e'
  objective_eq : e.objective = lastObjective requests
  solved : Solved e e' outcome found
  tracks : Recalls e (declaredStore requests) (requests.flatMap posts)
  small : ∀ p ∈ requests.flatMap posts, p.Small (declaredStore requests)

/-- Lawful requests can be performed and solved. -/
theorem Lawful.exists_answered (hlawful : Lawful {} requests) :
    ∃ e e' outcome found, Answered requests e e' outcome found := by
  obtain ⟨e, hrun, hrecalls, hsmall, hobj⟩ := recalls_run Recalls.fresh (by simp) hlawful
  rw [List.nil_append] at hrecalls hsmall
  have hsolve := hrecalls.solve
  match hs : Running.solve e, hsolve with
  | .ok outcome e', ⟨found, hsolved, _⟩ =>
    refine ⟨e, e', outcome, found, hrun, hs, ?_, hsolved, hrecalls, hsmall⟩
    simpa [show Engine.objective {} = none from rfl] using hobj
  | .error f e', ⟨_, hlarge⟩ => exact absurd hsmall hlarge

theorem exists_answered (hvalid : Valid {} requests) :
    ∃ e e' outcome found, Answered requests e e' outcome found :=
  hvalid.lawful.exists_answered

namespace Answered

/-- Everything found satisfies the requests. -/
theorem satisfies (h : Answered requests e e' outcome found) (hvalid : Valid {} requests)
    (hv : values ∈ found) : Satisfies requests (valuation values) :=
  (solves_iff_satisfies hvalid).mp (h.tracks.solves h.small h.solved hv)

/-- What is found last gives every view its value. -/
theorem solutionValue_eq (h : Answered requests e e' outcome found)
    (hlast : found.getLast? = some values) (hv : v.Exact (declaredStore requests)) :
    e'.solutionValue v = some (v.eval (valuation values)) :=
  h.tracks.solutionValue_eq h.solved hlast hv

/-- Whoever satisfies the requests is beaten once the search is exhausted. -/
theorem beaten (h : Answered requests e e' outcome found) (hvalid : Valid {} requests)
    (hsat : Satisfies requests a)
    (hended : Search.Ended e (!e.infeasible) (scores e.objective found).getLast? found .exhausted) :
    Beaten e.objective (scores e.objective found).getLast? a :=
  h.tracks.beaten h.small ((solves_iff_satisfies hvalid).mpr hsat) hended

end Answered

/-- Without an objective, an engine decides the requests: it finds one solution if there is
any, and then its views have the values of a solution; else it finds none, and none of its
variables has a value. -/
theorem solve_decides (hvalid : Valid {} requests) (hobj : lastObjective requests = none) :
    ∃ e e' outcome, run requests {} = .ok () e ∧ Running.solve e = .ok outcome e' ∧
      (outcome.solutions = 1 ↔ ∃ a, Satisfies requests a) ∧
      (outcome.solutions = 1 → ∃ a, Satisfies requests a ∧
        ∀ v : View, v.Exact (declaredStore requests) → e'.solutionValue v = some (v.eval a)) ∧
      (outcome.solutions ≠ 1 → outcome.solutions = 0 ∧ outcome.complete = true ∧
        ∀ x negated offset, e'.solutionValue (.affine x negated offset) = none) := by
  obtain ⟨e, e', outcome, found, h⟩ := exists_answered hvalid
  have hnone : e.objective = none := h.objective_eq.trans hobj
  refine ⟨e, e', outcome, h.run_eq, h.solve_eq, ?_⟩
  rw [h.solved.solutions_eq]
  obtain ⟨ending, hcomplete, hended⟩ := h.solved.ended
  cases ending with
  | satisfied =>
      obtain ⟨-, values, rfl⟩ := hended
      have hsat := h.satisfies hvalid (List.mem_singleton_self values)
      refine ⟨⟨fun _ => ⟨_, hsat⟩, fun _ => rfl⟩, fun _ => ⟨_, hsat, fun v hv => ?_⟩, by simp⟩
      exact h.solutionValue_eq rfl hv
  | exhausted =>
      obtain rfl := hended.2 hnone
      have hunsat : ¬ ∃ a, Satisfies requests a := by
        rintro ⟨a, ha⟩
        obtain ⟨direction, v, old, hsome, -⟩ := h.beaten hvalid ha hended
        rw [hnone] at hsome
        cases hsome
      refine ⟨by simp [hunsat], by simp, fun _ => ⟨rfl, by simpa using hcomplete, ?_⟩⟩
      intro x negated offset
      rw [solutionValue, h.solved.solution_eq]
      rfl

/-- Two numbers up to 3 in ascending order that add up to 3. -/
def ascendingPair : List Request :=
  [.interval 0 3 "x", .interval 0 3 "y", .rule (.less (.ofVar 0) (.ofVar 1) false) none,
    .linear [.ofVar 0, .ofVar 1] [1, 1] 3]

theorem valid_ascendingPair : Valid {} ascendingPair := by
  have hd : (ValueSet.interval 0 3).Proper :=
    ValueSet.proper_interval (by decide) (by decide) (by decide)
  have hs : (declaredStore ascendingPair).Proper := Store.proper_addVariable
    (Store.proper_addVariable (fun x hx => by simp [Store.numVariables] at hx) hd) hd
  have hviews : ∀ v ∈ [View.ofVar 0, View.ofVar 1], v.Exact (declaredStore ascendingPair) := by
    intro v hv
    rcases List.mem_pair.mp hv with rfl | rfl <;> exact View.exact_ofVar hs (by decide)
  exact ⟨⟨by decide, by decide⟩, ⟨by decide, by decide⟩, ⟨hviews, by simp⟩,
    ⟨hviews, by decide, by decide⟩, trivial⟩

theorem satisfies_ascendingPair : Satisfies ascendingPair fun x => x + 1 := by
  refine ⟨fun x domain hx => ?_, by decide⟩
  match x, hx with
  | 0, rfl => decide
  | 1, rfl => decide

/-- The engine finds such a pair. -/
theorem solve_decides_ascendingPair : ∃ e e' outcome, run ascendingPair {} = .ok () e ∧
    Running.solve e = .ok outcome e' ∧ outcome.solutions = 1 := by
  obtain ⟨e, e', outcome, hrun, hsolve, hiff, -⟩ := solve_decides valid_ascendingPair rfl
  exact ⟨e, e', outcome, hrun, hsolve, hiff.mpr ⟨_, satisfies_ascendingPair⟩⟩

/-- With an objective, an engine finds a best solution unless there is none. Everything that it
records on the way is a solution, and each is better than the one before unless nothing can be
better than some solution. -/
theorem solve_optimises (hvalid : Valid {} requests)
    (hobj : lastObjective requests = some (direction, v)) :
    ∃ e e' outcome, ∃ recorded : List Valuation,
      run requests {} = .ok () e ∧ Running.solve e = .ok outcome e' ∧ outcome.complete = true ∧
      (outcome.solutions = 0 ↔ ¬ ∃ a, Satisfies requests a) ∧
      outcome.solutions = recorded.length ∧
      e'.improvements = e.improvements ++ recorded.map v.eval ∧
      (∀ a ∈ recorded, Satisfies requests a) ∧
      (∀ a, recorded.getLast? = some a →
        (∀ w : View, w.Exact (declaredStore requests) → e'.solutionValue w = some (w.eval a)) ∧
        ∀ b, Satisfies requests b → ¬ direction.Better (v.eval b) (v.eval a)) ∧
      ((∀ a, Satisfies requests a → v.eval a ≠ direction.extreme) →
        recorded.IsChain fun a b => direction.Better (v.eval b) (v.eval a)) := by
  obtain ⟨e, e', outcome, found, h⟩ := exists_answered hvalid
  have hsome : e.objective = some (direction, v) := h.objective_eq.trans hobj
  have hscores : scores e.objective found = (found.map valuation).map v.eval := by
    rw [hsome, List.map_map]
    rfl
  have hrecorded : ∀ a ∈ found.map valuation, Satisfies requests a := by
    intro a ha
    obtain ⟨values, hv, rfl⟩ := List.mem_map.mp ha
    exact h.satisfies hvalid hv
  obtain ⟨ending, hcomplete, hended⟩ := h.solved.ended
  cases ending with
  | satisfied =>
      rw [hended.1] at hsome
      cases hsome
  | exhausted =>
  have hbeaten : ∀ b, Satisfies requests b → ∃ a, (found.map valuation).getLast? = some a ∧
      ¬ direction.Better (v.eval b) (v.eval a) := by
    intro b hb
    obtain ⟨direction', v', old, hsome', hlast, hnot⟩ := h.beaten hvalid hb hended
    obtain ⟨rfl, rfl⟩ := Prod.mk.inj (Option.some.inj (hsome.symm.trans hsome'))
    rw [hscores, List.getLast?_map, Option.map_eq_some_iff] at hlast
    obtain ⟨a, hlast, rfl⟩ := hlast
    exact ⟨a, hlast, hnot⟩
  refine ⟨e, e', outcome, found.map valuation, h.run_eq, h.solve_eq, by simpa using hcomplete, ?_,
    by rw [h.solved.solutions_eq, List.length_map], hscores ▸ h.solved.improvements_eq, hrecorded,
    fun a ha => ⟨?_, ?_⟩, fun hextreme => ?_⟩
  · rw [h.solved.solutions_eq, List.length_eq_zero_iff]
    constructor
    · rintro rfl ⟨a, ha⟩
      obtain ⟨_, hlast, -⟩ := hbeaten a ha
      cases hlast
    · intro hunsat
      by_contra hne
      obtain ⟨values, hv⟩ := List.exists_mem_of_ne_nil found hne
      exact hunsat ⟨_, h.satisfies hvalid hv⟩
  · intro w hw
    rw [List.getLast?_map, Option.map_eq_some_iff] at ha
    obtain ⟨values, hlast, rfl⟩ := ha
    exact h.solutionValue_eq hlast hw
  · intro b hb
    obtain ⟨a', ha', hnot⟩ := hbeaten b hb
    rw [ha] at ha'
    exact Option.some.inj ha' ▸ hnot
  · have hchain := h.solved.improving direction v hsome
    rw [hscores, List.isChain_map] at hchain
    have hexact := h.tracks.objective direction v hsome
    refine hchain.imp_of_mem_imp fun a b ha hb himproves => ?_
    have hadmits := ((solves_iff_satisfies hvalid).mpr (hrecorded a ha)).1
    exact Direction.better_of_improves (hexact.fits_eval hadmits) (hextreme a (hrecorded a ha)) himproves

/-- The pair whose first number is smallest, asked for by its distance to 3. -/
def widestPair : List Request := ascendingPair ++ [.objective .maximise (.affine 0 true 3)]

theorem valid_widestPair : Valid {} widestPair := by
  refine valid_concat.mpr ⟨valid_ascendingPair, by decide, fun w hw => ?_⟩
  have hw : w ∈ ValueSet.interval 0 3 := hw
  rw [ValueSet.mem_interval] at hw
  simp only [View.raw_affine, if_true, Word.Fits, word64]
  omega

/-- The engine proves the widest pair optimal. -/
theorem solve_optimises_widestPair : ∃ e e' outcome,
    run widestPair {} = .ok () e ∧ Running.solve e = .ok outcome e' ∧ outcome.complete = true ∧
      (outcome.solutions = 0 ↔ ¬ ∃ a, Satisfies widestPair a) := by
  obtain ⟨e, e', outcome, recorded, hrun, hsolve, hcomplete, hiff, -⟩ :=
    solve_optimises valid_widestPair rfl
  exact ⟨e, e', outcome, hrun, hsolve, hcomplete, hiff⟩

end FiniteDomain.Engine
