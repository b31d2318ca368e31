import FiniteDomain.Proofs.Engine.SearchTree

/-!
# Solving

Solving starts from a quiet engine and leaves it as it was, but for the recorded solution.
It schedules every propagator, so nothing has to be known about earlier propagation.
-/

namespace FiniteDomain.Engine

variable {e e' : Engine} {a : Valuation} {i : Nat}

/-- A well-formed engine between two calls: nothing is waiting, and no change is noted. -/
structure Idle (e : Engine) : Prop where
  wellFormed : e.WellFormed
  drained : e.Drained
  modified_eq : e.store.modified = #[]

/-- A legible engine between two calls. -/
structure Quiet (e : Engine) : Prop where
  legible : e.Legible
  drained : e.Drained
  modified_eq : e.store.modified = #[]

theorem Idle.quiet (h : Idle e) : Quiet e := ⟨h.wellFormed.legible, h.drained, h.modified_eq⟩

/-- What a search from the root has found. -/
structure Solved (e e' : Engine) (outcome : Statistics) (found : List (Array Int)) : Prop where
  store_eq : e'.store = e.store
  posted_eq : e'.posted = e.posted
  drained : e'.Drained
  feasible : e.infeasible = true → found = []
  accepted : ∀ values ∈ found, Accepted e values
  solution_eq : e'.solution = found.getLast?
  solutions_eq : outcome.solutions = found.length
  improvements_eq : e'.improvements = e.improvements ++ scores e.objective found
  improving : Improving e.objective (scores e.objective found)
  ended : ∃ ending, outcome.complete = decide (ending = .exhausted) ∧
    Search.Ended e (!e.infeasible) (scores e.objective found).getLast? found ending

/-- What a search does with an engine. -/
def Searched (e : Engine) : EStateM.Result Failure Engine Statistics → Prop
  | .ok outcome e' => ∃ found, Solved e e' outcome found
  | .error f _ => f = .overflow ∧ ¬ ∀ p ∈ e.propagators, p.Small e.store

/-- The engine at the start of a search: the root is protected by a checkpoint, and every
propagator is waiting. -/
def started (e : Engine) : Engine :=
  (List.range e.propagators.size).foldl schedule (e.withStore e.store.openCheckpoint)

theorem foldl_schedule (is : List Nat) (e : Engine) :
    is.foldl schedule e = e.withQueue (is.foldl Queue.enqueue e.toQueue) := by
  induction is generalizing e with
  | nil => rfl
  | cons i is ih =>
      rw [List.foldl_cons, ih]
      rfl

theorem started_eq (e : Engine) :
    started e = (e.withStore e.store.openCheckpoint).withQueue
      ((List.range e.propagators.size).foldl Queue.enqueue e.toQueue) :=
  foldl_schedule _ _

theorem legible_started (h : e.Legible) : (started e).Legible := by
  rw [started_eq]
  exact h.of_sets rfl rfl

theorem started_posted (e : Engine) : (started e).posted = e.posted := by
  rw [started_eq]
  rfl

/-- At the start of a search every propagator is scheduled. -/
theorem Drained.started (h : e.Drained) :
    (started e).Waiting ∧ ∀ i, i ∈ (started e).agenda ↔ i < e.propagators.size := by
  have hrange : ∀ j ∈ List.range e.propagators.size, j < e.propagators.size :=
    fun _ hj => List.mem_range.mp hj
  obtain ⟨hvalid, hmem⟩ := h.waiting.foldl_enqueue hrange
  rw [started_eq]
  refine ⟨hvalid, fun i => (hmem i).trans ?_⟩
  simp [h.agenda_eq]

theorem waiting_started (h : e.Drained) : (started e).Waiting := h.started.1

theorem mem_agenda_started (h : e.Drained) {p : Propagator}
    (hi : (started e).propagators[i]? = some p) : i ∈ (started e).agenda := by
  rw [propagators_eq_of_posted (started_posted e)] at hi
  exact (h.started.2 i).mpr (Array.getElem?_eq_some_iff.mp hi).1

theorem pending_started (h : e.Drained) : Pending (started e) := fun _ _ hi =>
  .inl (mem_agenda_started h hi)

theorem search_eq (e : Engine) :
    Running.search e =
      match Running.succeeds Running.propagate (started e) with
      | .error f e' => .error f e'
      | .ok consistent e' =>
        match Search.explore (started e).store.potential consistent { engine := e' } with
        | .error f s => .error f s.engine
        | .ok ending s =>
          .ok { s.statistics with complete := ending = .exhausted }
            (s.engine.withStore (s.engine.store.backtrack e.store.depth)) := by
  simp only [Running.search, bind, EStateM.bind, Search.onEngine, started, withStore]
  cases Running.succeeds _ _ with
  | error f e' => rfl
  | ok consistent e' =>
      simp only
      cases Search.explore _ _ _ <;> rfl

/-- The first propagation of a search leads to a state from which the search can go on. -/
theorem ready_of_started (h : Quiet e) :
    match Running.succeeds Running.propagate (started e) with
    | .ok consistent e' => Search.Ready { engine := e' } consistent ∧ Follows (started e) e' ∧
        ∀ a, Needs (started e) a → consistent = true ∧ Needs e' a
    | .error f _ => f = .overflow ∧ ¬ ∀ p ∈ (started e).propagators, p.Small (started e).store := by
  have hw := legible_started h.legible
  have hprop := propagated_propagate hw (waiting_started h.drained)
  simp only [Running.succeeds]
  cases hrun : Running.propagate (started e) with
  | ok _ e' =>
      rw [hrun] at hprop
      obtain ⟨hadv, hdrained, hmodified⟩ := hprop
      refine ⟨⟨hdrained, by simp, fun _ => ?_, fun _ a _ => ?_⟩, hadv.toFollows,
        fun a ha => ⟨rfl, hadv.needs hw ha (hadv.spares a ha)⟩⟩
      · exact ⟨hadv.legible hw, hdrained, hmodified, hadv.pending (pending_started h.drained)⟩
      · intro direction v old _ hbest
        cases hbest
  | error f e' =>
      rw [hrun] at hprop
      cases f with
      | conflict =>
          obtain ⟨hfol, hdrained, -, hnone⟩ := hprop
          exact ⟨⟨hdrained, by simp, by simp, by simp⟩, hfol, fun a ha => absurd ha (hnone a)⟩
      | overflow => exact ⟨rfl, hprop⟩

/-- A search from the root finds solutions, each within the bound of the one before, leaves no
better one behind, and restores the engine. -/
theorem searched_search (h : Quiet e) (hfeasible : e.infeasible = false)
    (hsolution : e.solution = none) :
    Searched e (Running.search e) := by
  have hstarted : (started e).posted = e.posted ∧ (started e).solution = e.solution ∧
      (started e).improvements = e.improvements ∧ (started e).store = e.store.openCheckpoint := by
    rw [started_eq]
    exact ⟨rfl, rfl, rfl, rfl⟩
  obtain ⟨hposted, hsol, himprovements, hstore⟩ := hstarted
  have hpropagators := propagators_eq_of_posted hposted
  have hsets : (started e).store.sets = e.store.sets := by rw [hstore]; rfl
  have hsmall : (∀ p ∈ e.propagators, p.Small e.store) →
      ∀ p ∈ (started e).propagators, p.Small (started e).store := fun h p hp =>
    (h p (hpropagators ▸ hp)).of_sets hsets
  rw [search_eq]
  match Running.succeeds Running.propagate (started e), ready_of_started h with
  | .error f e', ⟨hf, hlarge⟩ => exact ⟨hf, fun h => hlarge (hsmall h)⟩
  | .ok consistent e', ⟨hready, hfol, hneeds⟩ =>
    simp only
    have hw := legible_started h.legible
    have hfuel : e'.store.slack < (started e).store.potential :=
      hfol.yields.slack_le.trans_lt (Store.slack_lt_potential _)
    match Search.explore (started e).store.potential consistent { engine := e' },
      Search.explore_spec _ hready fun _ => hfuel with
    | .error f s, ⟨hf, hlarge⟩ => exact ⟨hf, fun h => hlarge (hfol.small hw (hsmall h))⟩
    | .ok ending s, ⟨found, hrec, hended⟩ =>
      have hobjective : e'.objective = e.objective :=
        (objective_eq_of_posted hfol.posted_eq).trans (objective_eq_of_posted hposted)
      have hdepth : e'.store.depth = e.store.depth + 1 := by
        rw [hfol.yields.depth_eq, hstore, Store.depth_openCheckpoint]
      refine ⟨found, ?_, (hrec.posted_eq.trans hfol.posted_eq).trans hposted, hrec.drained,
        by simp [hfeasible], fun values hv => ?_, ?_, ?_, ?_, ?_, ending, rfl, ?_⟩
      · calc s.engine.store.backtrack e.store.depth
            = e'.store.backtrack e.store.depth := hrec.backtrack_eq _ (by simp only; omega)
          _ = e.store.openCheckpoint.backtrack e.store.depth := by
              rw [hfol.yields.backtrack_eq (by rw [hstore, Store.depth_openCheckpoint]; omega),
                hstore]
          _ = e.store := by
              rw [Store.backtrack_openCheckpoint le_rfl, Store.backtrack_depth, ← h.modified_eq]
      · obtain ⟨hsize, hadmits, haccepts⟩ := (hrec.accepted values hv).of_follows hfol
        rw [hstore] at hsize hadmits
        exact ⟨hsize, hadmits, hpropagators ▸ haccepts⟩
      · have hnone : e'.solution = none := hfol.solution_eq.trans (hsol.trans hsolution)
        have := hrec.solution_eq
        rwa [hnone, Option.or_none] at this
      · simpa using hrec.solutions_eq
      · have := hrec.improvements_eq
        rw [hobjective, hfol.improvements_eq, himprovements] at this
        exact this
      · have := hrec.improving
        simpa [hobjective] using this
      · have hbest : s.best = (scores e.objective found).getLast? := by
          simpa [hobjective] using hrec.best_eq
        rw [hbest] at hended
        cases ending with
        | satisfied => exact ⟨hobjective ▸ hended.1, hended.2⟩
        | exhausted =>
            refine ⟨fun _ a ha => ?_, hobjective ▸ hended.2⟩
            obtain ⟨hc, ha'⟩ := hneeds a (ha.of_sets hsets hposted)
            exact hobjective ▸ hended.1 hc a ha'

/-- The engine without the solution found before. -/
def forgetful (e : Engine) : Engine := { e with solution := none }

theorem Searched.of_forgetful {r : EStateM.Result Failure Engine Statistics}
    (h : Searched e.forgetful r) : Searched e r := by
  match r, h with
  | .ok outcome e', ⟨found, hsolved⟩ =>
    obtain ⟨hstore, hposted, hdrained, hfeasible, haccepted, hsolution, hsolutions, himprovements,
      himproving, ending, hcomplete, hended⟩ := hsolved
    refine ⟨found, hstore, hposted, hdrained, hfeasible, fun values hv => ?_, hsolution, hsolutions,
      himprovements, himproving, ending, hcomplete, ?_⟩
    · obtain ⟨hsize, hadmits, haccepts⟩ := haccepted values hv
      exact ⟨hsize, hadmits, haccepts⟩
    cases ending with
    | satisfied => exact hended
    | exhausted => exact ⟨fun hc a ha => hended.1 hc a (ha.of_sets rfl rfl), hended.2⟩
  | .error f e', h => exact h

theorem solve_eq (e : Engine) :
    Running.solve e =
      if e.infeasible then .ok { complete := true } e.forgetful
      else Running.search e.forgetful := by
  simp only [Running.solve, bind, EStateM.bind, modify_apply, get_apply]
  split <;> rfl

/-- Solving finds what a search finds; an engine known to be infeasible is not searched. -/
theorem searched_solve (h : Quiet e) : Searched e (Running.solve e) := by
  rw [solve_eq]
  by_cases hinf : e.infeasible = true
  · rw [if_pos hinf]
    refine ⟨[], rfl, rfl, h.drained, fun _ => rfl, by simp, rfl, rfl, ?_, ?_, .exhausted, rfl, ?_⟩
    · cases hobj : e.objective <;> simp [scores, improvements, forgetful]
    · intro direction v hobj
      simp [scores, hobj]
    · exact ⟨by simp [hinf], fun _ => rfl⟩
  · rw [if_neg hinf]
    have hquiet : Quiet e.forgetful :=
      ⟨h.legible.of_sets rfl rfl, h.drained, h.modified_eq⟩
    have hfeasible : e.infeasible = false := by simpa using hinf
    exact (searched_search hquiet hfeasible rfl).of_forgetful

end FiniteDomain.Engine
