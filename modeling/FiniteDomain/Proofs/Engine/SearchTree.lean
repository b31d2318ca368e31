import FiniteDomain.Proofs.Engine.Branching

/-!
# The search tree

Below a node the search records solutions of the node, each within the bound demanded by the
one before. It leaves no solution behind that is better than the best one recorded; without
an objective it leaves none behind at all, unless it stops at the first. Every checkpoint
below the node is untouched, so returning to it restores the node. Each branch has less
slack than its node, which bounds the depth.
-/

namespace FiniteDomain.Engine

variable {e e' : Engine} {s : Store} {a : Valuation} {x : VarIndex} {value : Int}

/-! ## Selecting a variable -/

/-- The better choice among a variable and the best one so far. -/
def narrower (s : Store) (best : Option VarIndex) (x : VarIndex) : Option VarIndex :=
  if (s.set x).isFixed then best
  else match best with
    | none => some x
    | some b => if (s.set x).width < (s.set b).width then some x else best

theorem narrower_cases (s : Store) (best : Option VarIndex) (x : VarIndex) :
    (s.set x).isFixed = true ∧ narrower s best x = best ∨
      (s.set x).isFixed = false ∧ (narrower s best x = some x ∨ ∃ b, best = some b ∧
        narrower s best x = best) := by
  cases hf : (s.set x).isFixed with
  | true => exact .inl ⟨rfl, by simp [narrower, hf]⟩
  | false =>
      refine .inr ⟨rfl, ?_⟩
      cases best with
      | none => exact .inl (by simp [narrower, hf])
      | some b =>
          simp only [narrower, hf, Bool.false_eq_true, if_false]
          split
          · exact .inl rfl
          · exact .inr ⟨b, rfl, rfl⟩

/-- The selection keeps an unfixed variable unless there is none. -/
theorem foldl_narrower (s : Store) (xs : List VarIndex) (best : Option VarIndex) :
    (xs.foldl (narrower s) best = none → best = none ∧ ∀ x ∈ xs, (s.set x).isFixed = true) ∧
      ∀ y, xs.foldl (narrower s) best = some y →
        best = some y ∨ y ∈ xs ∧ (s.set y).isFixed = false := by
  induction xs generalizing best with
  | nil => simp
  | cons x xs ih =>
      rw [List.foldl_cons]
      obtain ⟨ihnone, ihsome⟩ := ih (narrower s best x)
      constructor
      · intro h
        obtain ⟨hbest, hxs⟩ := ihnone h
        rcases narrower_cases s best x with ⟨hf, heq⟩ | ⟨-, heq | ⟨b, hb, heq⟩⟩
        · exact ⟨heq.symm.trans hbest, by simpa [hf] using hxs⟩
        · rw [heq] at hbest
          cases hbest
        · rw [heq, hb] at hbest
          cases hbest
      · intro y h
        rcases ihsome y h with hbest | ⟨hy, hf⟩
        · rcases narrower_cases s best x with ⟨-, heq⟩ | ⟨hf, heq | ⟨b, -, heq⟩⟩
          · exact .inl (heq.symm.trans hbest)
          · rw [heq, Option.some.injEq] at hbest
            exact .inr ⟨by simp [hbest], hbest ▸ hf⟩
          · exact .inl (heq.symm.trans hbest)
        · exact .inr ⟨List.mem_cons_of_mem x hy, hf⟩

theorem isFixed_of_narrowestUnfixed (h : s.narrowestUnfixed = none) (hx : x < s.numVariables) :
    (s.set x).isFixed = true :=
  ((foldl_narrower s _ none).1 h).2 x (List.mem_range.mpr hx)

theorem narrowestUnfixed_spec (h : s.narrowestUnfixed = some x) :
    x < s.numVariables ∧ (s.set x).isFixed = false := by
  rcases (foldl_narrower s _ none).2 x h with h | ⟨hx, hf⟩
  · cases h
  · exact ⟨List.mem_range.mp hx, hf⟩

/-! ## Recording solutions -/

/-- The valuation that a recorded solution stands for. -/
def valuation (values : Array Int) : Valuation := fun x => values.getD x 0

/-- The values that are recorded as a solution. -/
def leastValues (s : Store) : Array Int := s.sets.map (·.lower)

theorem valuation_leastValues (s : Store) : valuation (leastValues s) = s.least := by
  funext x
  by_cases hx : x < s.sets.size
  · simp [valuation, leastValues, Store.least, Store.set, hx]
  · simp only [valuation, leastValues, Store.least, Store.set, Array.getD_eq_getD_getElem?,
      Array.getElem?_map, Array.getElem?_eq_none (not_lt.mp hx)]
    rfl

/-- The store admits the values, and every propagator has accepted them. -/
structure Accepted (e : Engine) (values : Array Int) : Prop where
  size_eq : values.size = e.store.numVariables
  admits : e.store.Admits (valuation values)
  accepts : ∀ p ∈ e.propagators, p.Accepts (valuation values)

/-- Once all variables of a node are fixed, their values are accepted. -/
theorem Node.accepted (hn : Node e) (h : e.store.narrowestUnfixed = none) :
    Accepted e (leastValues e.store) := by
  refine ⟨by simp [leastValues, Store.numVariables], ?_, fun p hp => ?_⟩
  · rw [valuation_leastValues]
    exact e.store.admits_least hn.legible.proper
  rw [valuation_leastValues]
  refine hn.settled hp fun v hv => ?_
  have hcreated := (hn.legible.readable p hp).created v hv
  cases v with
  | constant c => rfl
  | affine x negated offset => exact isFixed_of_narrowestUnfixed h (hcreated x rfl)

theorem Accepted.of_follows {values : Array Int} (h : Accepted e' values) (hf : Follows e e') :
    Accepted e values :=
  ⟨h.size_eq.trans (Store.numVariables_eq_of_le hf.yields.le), hf.yields.admits h.admits,
    hf.propagators_eq ▸ h.accepts⟩

/-- The objective values of recorded solutions. -/
def scores (objective : Option (Direction × View)) (found : List (Array Int)) : List Int :=
  match objective with
  | none => []
  | some (_, v) => found.map fun values => v.eval (valuation values)

theorem scores_append (objective : Option (Direction × View)) (found found' : List (Array Int)) :
    scores objective (found ++ found') = scores objective found ++ scores objective found' := by
  match objective with
  | none => rfl
  | some (_, v) => exact List.map_append

/-- Each objective value lies within the bound demanded by the one before. -/
def Improving (objective : Option (Direction × View)) (values : List Int) : Prop :=
  ∀ direction v, objective = some (direction, v) →
    values.IsChain fun old new => direction.Improves new old

/-- A chain goes on with what its last element can be followed by. -/
theorem isChain_append_of_last {r : Int → Int → Prop} {before after : List Int}
    (h : before.IsChain r) (h' : (before.getLast?.toList ++ after).IsChain r) :
    (before ++ after).IsChain r := by
  rw [List.isChain_append] at h' ⊢
  refine ⟨h, h'.2.1, fun x hx y hy => h'.2.2 x ?_ y hy⟩
  rw [Option.mem_def] at hx
  simp [hx]

/-! ## Steps of the search -/

namespace Search

/-- The search with another engine. -/
def withEngine (s : Search) (e : Engine) : Search := { s with engine := e }

/-- The search with another number of solutions. -/
def counted (s : Search) : Search :=
  { s with statistics := { s.statistics with solutions := s.statistics.solutions + 1 } }

theorem accept_eq (s : Search) :
    accept s =
      match s.engine.objective with
      | none => .ok .satisfied (s.counted.withEngine (recordSolution s.engine))
      | some (direction, v) =>
        .ok .exhausted
          { s.counted.withEngine
              ((recordSolution s.engine).note (.improved (s.engine.lowerBound v) direction)) with
            best := some (s.engine.lowerBound v) } := by
  have hobj : (recordSolution s.engine).objective = s.engine.objective := rfl
  simp only [accept, modifyEngine, onEngine, count, bind, EStateM.bind, modify_apply, get_apply,
    hobj]
  cases s.engine.objective <;> rfl

/-- The engine in which a decision is made. -/
def opened (e : Engine) (x : VarIndex) (value : Int) : Engine :=
  (e.note (.deciding (e.name x) value)).withStore e.store.openCheckpoint

/-- The search with another number of decisions. -/
def decided (s : Search) : Search :=
  { s with statistics := { s.statistics with nodes := s.statistics.nodes + 1 } }

theorem branch_eq (s : Search) (x : VarIndex) (value : Int) :
    branch x value s =
      match Running.succeeds (Running.decide x value) (opened s.engine x value) with
      | .ok consistent e => .ok consistent (s.decided.withEngine e)
      | .error f e => .error f (s.decided.withEngine e) := by
  simp only [branch, modifyEngine, onEngine, count, bind, EStateM.bind, modify_apply, get_apply,
    opened, withStore, note]
  generalize Running.succeeds _ _ = r
  cases r <;> rfl

theorem retract_eq (s : Search) (depth : Nat) (x : VarIndex) (value : Int) :
    retract depth x value s =
      match Running.succeeds (Running.refute x value s.best)
          (s.engine.withStore (s.engine.store.backtrack depth)) with
      | .ok consistent e => .ok consistent (s.withEngine e)
      | .error f e => .error f (s.withEngine e) := by
  simp only [retract, modifyEngine, onEngine, bind, EStateM.bind, modify_apply, get_apply,
    withStore]
  generalize Running.succeeds _ _ = r
  cases r <;> rfl

theorem explore_succ (fuel : Nat) (s : Search) :
    explore (fuel + 1) true s =
      match s.engine.store.narrowestUnfixed with
      | none => accept s
      | some x =>
        match branch x (s.engine.store.set x).lower s with
        | .error f t => .error f t
        | .ok consistent t =>
          match explore fuel consistent t with
          | .error f t => .error f t
          | .ok .satisfied t => .ok .satisfied t
          | .ok .exhausted t =>
            match retract s.engine.store.depth x (s.engine.store.set x).lower t with
            | .error f t => .error f t
            | .ok consistent t => explore fuel consistent t := by
  simp only [explore, bind, EStateM.bind, get_apply]
  cases s.engine.store.narrowestUnfixed with
  | none => rfl
  | some x =>
      simp only [EStateM.bind]
      cases branch x (s.engine.store.set x).lower s with
      | error f t => rfl
      | ok consistent t =>
          simp only
          cases explore fuel consistent t with
          | error f t => rfl
          | ok ending t =>
              cases ending with
              | satisfied => rfl
              | exhausted =>
                  simp only [EStateM.bind]
                  cases retract s.engine.store.depth x (s.engine.store.set x).lower t <;> rfl

/-- What a part of the search has recorded, and that it left the checkpoints alone. -/
structure Recorded (s s' : Search) (found : List (Array Int)) : Prop where
  posted_eq : s'.engine.posted = s.engine.posted
  drained : s'.engine.Drained
  depth_le : s.engine.store.depth ≤ s'.engine.store.depth
  backtrack_eq : ∀ k < s.engine.store.depth,
    s'.engine.store.backtrack k = s.engine.store.backtrack k
  accepted : ∀ values ∈ found, Accepted s.engine values
  solution_eq : s'.engine.solution = found.getLast?.or s.engine.solution
  solutions_eq : s'.statistics.solutions = s.statistics.solutions + found.length
  improvements_eq : s'.engine.improvements =
    s.engine.improvements ++ scores s.engine.objective found
  best_eq : s'.best = (scores s.engine.objective found).getLast?.or s.best
  best_fits : ∀ value, s'.best = some value → word64.Fits value
  improving : Improving s.engine.objective (s.best.toList ++ scores s.engine.objective found)
  beaten : ∀ a, Beaten s.engine.objective s.best a → Beaten s.engine.objective s'.best a

/-- What is known about the solutions of a consistent engine once the search below it has
ended. -/
def Ended (e : Engine) (consistent : Bool) (best : Option Int) (found : List (Array Int)) :
    Ending → Prop
  | .exhausted => (consistent = true → ∀ a, Needs e a → Beaten e.objective best a) ∧
      (e.objective = none → found = [])
  | .satisfied => e.objective = none ∧ ∃ values, found = [values]

theorem Recorded.objective_eq {s s' : Search} {found : List (Array Int)} (h : Recorded s s' found) :
    s'.engine.objective = s.engine.objective :=
  objective_eq_of_posted h.posted_eq

/-- Two parts of the search, one after the other. -/
theorem Recorded.trans {s s' s'' : Search} {found found' : List (Array Int)}
    (h : Recorded s s' found) (h' : Recorded s' s'' found')
    (haccepted : ∀ values, Accepted s'.engine values → Accepted s.engine values) :
    Recorded s s'' (found ++ found') where
  posted_eq := h'.posted_eq.trans h.posted_eq
  drained := h'.drained
  depth_le := h.depth_le.trans h'.depth_le
  backtrack_eq := fun k hk =>
    (h'.backtrack_eq k (hk.trans_le h.depth_le)).trans (h.backtrack_eq k hk)
  accepted := fun values hmem => (List.mem_append.mp hmem).elim (h.accepted values)
    fun hmem => haccepted _ (h'.accepted values hmem)
  solution_eq := by
    rw [h'.solution_eq, h.solution_eq, List.getLast?_append, Option.or_assoc]
  solutions_eq := by
    rw [h'.solutions_eq, h.solutions_eq, List.length_append, Nat.add_assoc]
  improvements_eq := by
    rw [h'.improvements_eq, h.improvements_eq, h.objective_eq, scores_append, List.append_assoc]
  best_eq := by
    rw [h'.best_eq, h.best_eq, h.objective_eq, scores_append, List.getLast?_append,
      Option.or_assoc]
  best_fits := h'.best_fits
  improving := fun direction v hobj => by
    have hright := h'.improving direction v (h.objective_eq.trans hobj)
    have hlast : s'.best = (s.best.toList ++ scores s.engine.objective found).getLast? := by
      rw [h.best_eq, List.getLast?_append]
      cases s.best <;> rfl
    rw [h.objective_eq, hlast] at hright
    rw [scores_append, ← List.append_assoc]
    exact isChain_append_of_last (h.improving direction v hobj) hright
  beaten := fun a ha => h.objective_eq ▸ h'.beaten a (h.objective_eq.symm ▸ h.beaten a ha)

/-- A state from which the search can go on. If propagation has found it consistent, it is a
node within the bound of the best value so far. -/
structure Ready (s : Search) (consistent : Bool) : Prop where
  drained : s.engine.Drained
  best_fits : ∀ value, s.best = some value → word64.Fits value
  node : consistent = true → Node s.engine
  within : consistent = true → ∀ a, s.engine.store.Admits a →
    Within s.engine.objective s.best a

/-- A part of the search that records nothing. -/
theorem Recorded.nothing {s s' : Search} (hposted : s'.engine.posted = s.engine.posted)
    (hdrained : s'.engine.Drained)
    (hdepth : s.engine.store.depth ≤ s'.engine.store.depth)
    (hback : ∀ k < s.engine.store.depth,
      s'.engine.store.backtrack k = s.engine.store.backtrack k)
    (hsolution : s'.engine.solution = s.engine.solution)
    (hsolutions : s'.statistics.solutions = s.statistics.solutions)
    (himprovements : s'.engine.improvements = s.engine.improvements) (hbest : s'.best = s.best)
    (hfits : ∀ value, s.best = some value → word64.Fits value) : Recorded s s' [] where
  posted_eq := hposted
  drained := hdrained
  depth_le := hdepth
  backtrack_eq := hback
  accepted := by simp
  solution_eq := hsolution
  solutions_eq := hsolutions
  improvements_eq := by
    rw [himprovements]
    cases s.engine.objective <;> simp [scores]
  best_eq := by
    rw [hbest]
    cases s.engine.objective <;> simp [scores]
  best_fits := hbest ▸ hfits
  improving := fun direction v hobj => by
    cases hb : s.best <;> simp [scores, hobj]
  beaten := fun a ha => hbest ▸ ha

section Leaf

variable {s : Search} {direction : Direction} {v : View}

/-- Where no variable is left to decide, the objective has one value. -/
theorem eval_of_leaf (hr : Ready s true) (hnone : s.engine.store.narrowestUnfixed = none)
    (hobj : s.engine.objective = some (direction, v)) (a : Valuation)
    (ha : s.engine.store.Admits a) : v.eval a = s.engine.lowerBound v := by
  have hn := hr.node rfl
  have hexact := hn.legible.objective direction v hobj
  have hfixed : s.engine.store.isFixed v = true := by
    cases v with
    | constant c => rfl
    | affine x negated offset => exact isFixed_of_narrowestUnfixed hnone hexact.1
  exact (Store.isFixed_iff hn.legible.proper hexact).mp hfixed a ha

/-- That value is recorded, and improves on the best one. -/
theorem scores_of_leaf (hr : Ready s true) (hnone : s.engine.store.narrowestUnfixed = none)
    (hobj : s.engine.objective = some (direction, v)) :
    scores (some (direction, v)) [leastValues s.engine.store] = [s.engine.lowerBound v] ∧
      word64.Fits (s.engine.lowerBound v) ∧
      ∀ old, s.best = some old → direction.Improves (s.engine.lowerBound v) old := by
  have hn := hr.node rfl
  have hleast := s.engine.store.admits_least hn.legible.proper
  have hvalue := eval_of_leaf hr hnone hobj _ hleast
  refine ⟨?_, ?_, fun old hold => ?_⟩
  · simp [scores, valuation_leastValues, hvalue]
  · exact hvalue ▸ (hn.legible.objective direction v hobj).fits_eval hleast
  · exact hvalue ▸ hr.within rfl _ hleast direction v old hobj hold

end Leaf

/-- A solution is recorded where all variables are fixed. -/
theorem recorded_accept {s : Search} (hr : Ready s true)
    (hnone : s.engine.store.narrowestUnfixed = none) :
    ∃ ending s' found, accept s = .ok ending s' ∧ Recorded s s' found ∧
      Ended s.engine true s'.best found ending := by
  have hn := hr.node rfl
  have haccepted : ∀ values ∈ [leastValues s.engine.store], Accepted s.engine values := by
    intro values hmem
    rw [List.mem_singleton.mp hmem]
    exact hn.accepted hnone
  rw [accept_eq]
  match hobj : s.engine.objective with
  | none =>
    refine ⟨_, _, [leastValues s.engine.store], rfl, ⟨rfl, hn.drained, le_rfl, fun _ _ => rfl,
      haccepted, rfl, rfl, ?_, ?_, hr.best_fits, ?_, fun a ha => ha⟩, hobj, _, rfl⟩
    · simp only [scores, hobj, List.append_nil]
      rfl
    · simp only [scores, hobj]
      rfl
    · intro direction v h
      cases hobj.symm.trans h
  | some (direction, v) =>
    have hvalue := eval_of_leaf hr hnone hobj
    obtain ⟨hscores, hfits, hwithin⟩ := scores_of_leaf hr hnone hobj
    refine ⟨_, _, [leastValues s.engine.store], rfl, ⟨rfl, hn.drained, le_rfl, fun _ _ => rfl,
      haccepted, rfl, rfl, ?_, ?_, ?_, ?_, ?_⟩, ?_, ?_⟩
    · rw [hobj, hscores]
      simp [improvements, Search.withEngine, note, recordSolution, Event.improvement?]
    · rw [hobj, hscores]
      rfl
    · intro value hbest
      exact Option.some.inj hbest ▸ hfits
    · intro direction' v' hobj'
      obtain ⟨rfl, rfl⟩ := Prod.mk.inj (Option.some.inj (hobj.symm.trans hobj'))
      rw [hobj, hscores]
      cases hbest : s.best with
      | none => simp
      | some old => simpa using hwithin old hbest
    · rintro a ⟨direction', v', old, hobj', hbest, hnot⟩
      obtain ⟨rfl, rfl⟩ := Prod.mk.inj (Option.some.inj (hobj.symm.trans hobj'))
      exact ⟨direction, v, _, hobj, rfl, Direction.not_better_trans (hr.best_fits old hbest)
        (hwithin old hbest) hnot⟩
    · intro _ a ha
      refine ⟨direction, v, _, hobj, rfl, ?_⟩
      have heq := hvalue a ha.1
      cases direction <;> simp [Direction.Better, heq]
    · intro h
      cases hobj.symm.trans h

/-- The state in which a branch of a node is searched. -/
structure Branch (s t : Search) (p : Valuation → Prop) (consistent : Bool)
    (found : List (Array Int)) : Prop where
  ready : Ready t consistent
  recorded : Recorded s t found
  accepted : ∀ values, Accepted t.engine values → Accepted s.engine values
  needs : ∀ a, Needs s.engine a → p a → consistent = true ∧ Needs t.engine a
  small : (∀ q ∈ s.engine.propagators, q.Small s.engine.store) →
    ∀ q ∈ t.engine.propagators, q.Small t.engine.store
  slack_lt : consistent = true → t.engine.store.slack < s.engine.store.slack

/-- Deciding a variable opens a checkpoint, and leads to the solutions with that value. -/
theorem branch_spec {s : Search} (hr : Ready s true)
    (hsome : s.engine.store.narrowestUnfixed = some x) :
    match branch x (s.engine.store.set x).lower s with
    | .ok consistent t =>
      Branch s t (fun a => a x = (s.engine.store.set x).lower) consistent [] ∧
        s.engine.store.depth < t.engine.store.depth ∧
        t.engine.store.backtrack s.engine.store.depth = s.engine.store
    | .error f _ => f = .overflow ∧ ¬ ∀ q ∈ s.engine.propagators, q.Small s.engine.store := by
  have hn := hr.node rfl
  obtain ⟨hx, hunfixed⟩ := narrowestUnfixed_spec hsome
  generalize hvalue : (s.engine.store.set x).lower = value
  have ho : Node (opened s.engine x value) := hn.of_sets rfl rfl hn.drained hn.modified_eq
  have hbranched := branched_decide ho hx value
  have hdepth : (opened s.engine x value).store.depth = s.engine.store.depth + 1 := rfl
  have hback : ∀ k ≤ s.engine.store.depth,
      (opened s.engine x value).store.backtrack k = s.engine.store.backtrack k :=
    fun k hk => Store.backtrack_openCheckpoint hk
  have himprovements : (opened s.engine x value).improvements = s.engine.improvements := by
    simp [improvements, opened, withStore, note, Event.improvement?]
  have hneeds : ∀ a, Needs s.engine a → Needs (opened s.engine x value) a :=
    fun a ha => ha.of_sets rfl rfl
  have hsmall : (∀ q ∈ s.engine.propagators, q.Small s.engine.store) →
      ∀ q ∈ (opened s.engine x value).propagators, q.Small (opened s.engine x value).store :=
    fun h q hq => (h q hq).of_sets rfl
  have haccepted : ∀ e', Follows (opened s.engine x value) e' → ∀ values, Accepted e' values →
      Accepted s.engine values := fun e' hf values h => by
    obtain ⟨hsize, hadmits, haccepts⟩ := h.of_follows hf
    exact ⟨hsize, hadmits, haccepts⟩
  have hrecorded : ∀ e', Follows (opened s.engine x value) e' → e'.Drained →
      Recorded s (s.decided.withEngine e') [] ∧
        s.engine.store.depth < e'.store.depth ∧
        e'.store.backtrack s.engine.store.depth = s.engine.store := by
    intro e' hf hdrained
    have hback' : ∀ k ≤ s.engine.store.depth, e'.store.backtrack k = s.engine.store.backtrack k :=
      fun k hk => (hf.yields.backtrack_eq (by omega)).trans (hback k hk)
    have hdepth' := hf.yields.depth_eq.trans hdepth
    refine ⟨.nothing hf.posted_eq hdrained (by simp only [withEngine]; omega) (fun k hk => hback' k hk.le)
      hf.solution_eq rfl (hf.improvements_eq.trans himprovements) rfl hr.best_fits,
      by omega, ?_⟩
    rw [hback' _ le_rfl, Store.backtrack_depth, ← hn.modified_eq]
  rw [branch_eq]
  generalize Running.succeeds (Running.decide x value) (opened s.engine x value) = r at hbranched
  rcases r with ⟨_ | _, e'⟩ | ⟨_ | _, e'⟩
  · obtain ⟨hf, hdrained, hdead⟩ := hbranched
    obtain ⟨hrec, hopen⟩ := hrecorded e' hf hdrained
    exact ⟨⟨⟨hdrained, hr.best_fits, by simp, by simp⟩, hrec,
      fun values h => haccepted e' hf values h,
      fun a ha hpa => absurd hpa (hdead a (hneeds a ha)),
      fun h => hf.small ho.legible (hsmall h), by simp⟩, hopen⟩
  · obtain ⟨hnode, hf, hp, hspares⟩ := hbranched
    obtain ⟨hrec, hopen⟩ := hrecorded e' hf hnode.drained
    refine ⟨⟨⟨hnode.drained, hr.best_fits, fun _ => hnode, fun _ a ha => ?_⟩, hrec,
      fun values h => haccepted e' hf values h,
      fun a ha hpa => ⟨rfl, ?_⟩,
      fun h => hf.small ho.legible (hsmall h), fun _ => ?_⟩, hopen⟩
    · rw [hrec.objective_eq]
      exact hr.within rfl a (hf.yields.admits ha)
    · exact hf.needs ho.legible (hneeds a ha) (hspares a (hneeds a ha) hpa)
    · -- the upper bound of the decided variable is lost
      have hupper := Store.admits_update_least hn.legible.proper
        (hn.legible.proper x hx).upper_mem
      refine slack_lt_of_follows (e := opened s.engine x value) hf hp hupper ?_
      simp only [Function.update_self, ← hvalue]
      simp only [ValueSet.isFixed, beq_eq_false_iff_ne] at hunfixed
      exact fun h => hunfixed h.symm
  · cases hbranched
  · exact ⟨rfl, fun h => hbranched (hsmall h)⟩

/-- Refuting a decision leads back to the node, and on to its other solutions that are better
than the best so far. -/
theorem retract_spec {s t : Search} {found : List (Array Int)} (hr : Ready s true)
    (hsome : s.engine.store.narrowestUnfixed = some x) (hrec : Recorded s t found)
    (hback : t.engine.store.backtrack s.engine.store.depth = s.engine.store) :
    match retract s.engine.store.depth x (s.engine.store.set x).lower t with
    | .ok consistent u =>
      Branch s u (fun a => a x ≠ (s.engine.store.set x).lower ∧
        Within s.engine.objective t.best a) consistent found ∧ u.best = t.best
    | .error f _ => f = .overflow ∧ ¬ ∀ q ∈ s.engine.propagators, q.Small s.engine.store := by
  have hn := hr.node rfl
  obtain ⟨hx, -⟩ := narrowestUnfixed_spec hsome
  generalize hvalue : (s.engine.store.set x).lower = value
  rw [retract_eq, hback]
  have hposted : (t.engine.withStore s.engine.store).posted = s.engine.posted := hrec.posted_eq
  have ho : Node (t.engine.withStore s.engine.store) :=
    hn.of_sets rfl hposted hrec.drained hn.modified_eq
  have hbranched := branched_refute ho hx value t.best
  have hobjective : (t.engine.withStore s.engine.store).objective = s.engine.objective :=
    hrec.objective_eq
  have hneeds : ∀ a, Needs s.engine a → Needs (t.engine.withStore s.engine.store) a :=
    fun a ha => ha.of_sets rfl hposted
  have hpropagators : (t.engine.withStore s.engine.store).propagators = s.engine.propagators :=
    propagators_eq_of_posted hposted
  have hsmall : (∀ q ∈ s.engine.propagators, q.Small s.engine.store) →
      ∀ q ∈ (t.engine.withStore s.engine.store).propagators, q.Small s.engine.store :=
    fun h q hq => h q (hpropagators ▸ hq)
  have haccepted : ∀ values, Accepted (t.engine.withStore s.engine.store) values →
      Accepted s.engine values := fun values h => ⟨h.size_eq, h.admits, hpropagators ▸ h.accepts⟩
  have hrecorded : ∀ e', Follows (t.engine.withStore s.engine.store) e' → e'.Drained →
      Recorded s (t.withEngine e') found := by
    intro e' hf hdrained
    have hdepth : e'.store.depth = s.engine.store.depth := hf.yields.depth_eq
    refine { hrec with
      posted_eq := hf.posted_eq.trans hposted
      drained := hdrained
      depth_le := hdepth.ge
      backtrack_eq := fun k hk => hf.yields.backtrack_eq hk
      solution_eq := hf.solution_eq.trans hrec.solution_eq
      improvements_eq := hf.improvements_eq.trans hrec.improvements_eq }
  rw [hobjective] at hbranched
  match Running.succeeds (Running.refute x value t.best) (t.engine.withStore s.engine.store),
    hbranched with
  | .ok true e', ⟨hnode, hf, hp, hspares⟩ =>
    have hrec' := hrecorded e' hf hnode.drained
    refine ⟨⟨⟨hnode.drained, hrec.best_fits, fun _ => hnode, fun _ a ha => ?_⟩, hrec',
      fun values h => haccepted values (h.of_follows hf), fun a ha hpa => ⟨rfl, ?_⟩,
      fun h => hf.small ho.legible (hsmall h), fun _ => ?_⟩, rfl⟩
    · rw [hrec'.objective_eq]
      exact (hp a ha).2
    · exact hf.needs ho.legible (hneeds a ha) (hspares a (hneeds a ha) hpa)
    · -- the refuted value is lost
      exact slack_lt_of_follows (e := t.engine.withStore s.engine.store) hf hp
        (Store.admits_least hn.legible.proper) fun h => h.1 hvalue
  | .ok false e', ⟨hf, hdrained, hdead⟩ =>
    exact ⟨⟨⟨hdrained, hrec.best_fits, by simp, by simp⟩, hrecorded e' hf hdrained,
      fun values h => haccepted values (h.of_follows hf),
      fun a ha hpa => absurd hpa (hdead a (hneeds a ha)),
      fun h => hf.small ho.legible (hsmall h), by simp⟩, rfl⟩
  | .error .overflow e', hlarge => exact ⟨rfl, fun h => hlarge (hsmall h)⟩

/-! ## The whole tree -/

theorem explore_inconsistent (fuel : Nat) {s : Search} (hr : Ready s false) :
    ∃ s', explore fuel false s = .ok .exhausted s' ∧ Recorded s s' [] := by
  cases fuel with
  | zero => exact ⟨s, rfl, .nothing rfl hr.drained le_rfl (fun _ _ => rfl) rfl rfl rfl rfl
      hr.best_fits⟩
  | succ fuel => exact ⟨_, rfl, .nothing rfl hr.drained le_rfl (fun _ _ => rfl) rfl rfl rfl rfl
      hr.best_fits⟩

/-- The solutions of a node are shared between its two branches and what the first one has
beaten. -/
theorem ended_of_branches {s t u w z : Search} {consistent consistent' : Bool}
    {found found' : List (Array Int)} {ending : Ending} (hr : Ready s true)
    (hleft : Branch s t (fun a => a x = value) consistent [])
    (hended : Ended t.engine consistent u.best found .exhausted)
    (hright : Branch s w (fun a => a x ≠ value ∧ Within s.engine.objective u.best a) consistent'
      found)
    (hbest : w.best = u.best) (hrec : Recorded w z found')
    (hended' : Ended w.engine consistent' z.best found' ending) :
    Ended s.engine true z.best (found ++ found') ending := by
  have hleftObj := hleft.recorded.objective_eq
  have hrightObj := hright.recorded.objective_eq
  cases ending with
  | satisfied =>
      obtain ⟨hnone, values, hfound'⟩ := hended'
      rw [hrightObj] at hnone
      exact ⟨hnone, values, by rw [hended.2 (hleftObj.trans hnone), hfound']; rfl⟩
  | exhausted =>
      refine ⟨fun _ a ha => ?_, fun hnone => ?_⟩
      · have later : Beaten s.engine.objective u.best a → Beaten s.engine.objective z.best a := by
          have := hrec.beaten a
          rwa [hrightObj, hbest] at this
        by_cases hax : a x = value
        · obtain ⟨hc, hneeds⟩ := hleft.needs a ha hax
          exact later (hleftObj ▸ hended.1 hc a hneeds)
        · by_cases hwithin : Within s.engine.objective u.best a
          · obtain ⟨hc, hneeds⟩ := hright.needs a ha ⟨hax, hwithin⟩
            exact hrightObj ▸ hended'.1 hc a hneeds
          · exact later (beaten_of_not_within (hr.node rfl).legible.objective ha.1 hwithin)
      · rw [hended.2 (hleftObj.trans hnone), hended'.2 (hrightObj.trans hnone)]
        rfl

/-- The search below a state records solutions of that state, each within the bound of the one
before, and leaves no better one behind. -/
theorem explore_spec (fuel : Nat) {s : Search} {consistent : Bool} (hr : Ready s consistent)
    (hfuel : consistent = true → s.engine.store.slack < fuel) :
    match explore fuel consistent s with
    | .ok ending s' => ∃ found, Recorded s s' found ∧
        Ended s.engine consistent s'.best found ending
    | .error f _ => f = .overflow ∧ ¬ ∀ q ∈ s.engine.propagators, q.Small s.engine.store := by
  induction fuel generalizing s consistent with
  | zero =>
      cases consistent with
      | false =>
          obtain ⟨s', heq, hrec⟩ := explore_inconsistent 0 hr
          rw [heq]
          exact ⟨[], hrec, by simp, fun _ => rfl⟩
      | true => exact absurd (hfuel rfl) (Nat.not_lt_zero _)
  | succ fuel ih =>
      cases consistent with
      | false =>
          obtain ⟨s', heq, hrec⟩ := explore_inconsistent (fuel + 1) hr
          rw [heq]
          exact ⟨[], hrec, by simp, fun _ => rfl⟩
      | true =>
          rw [explore_succ]
          cases hsome : s.engine.store.narrowestUnfixed with
          | none =>
              obtain ⟨ending, s', found, heq, hrec, hended⟩ := recorded_accept hr hsome
              simp only [heq]
              exact ⟨found, hrec, hended⟩
          | some x =>
              simp only
              have hslack := hfuel rfl
              match branch x (s.engine.store.set x).lower s, branch_spec hr hsome with
              | .error f t, hfail => exact hfail
              | .ok c t, ⟨hleft, hopen, hback⟩ =>
                simp only
                have ihleft := ih hleft.ready fun hc => by have := hleft.slack_lt hc; omega
                match explore fuel c t, ihleft with
                | .error f u, hfail => exact ⟨hfail.1, fun h => hfail.2 (hleft.small h)⟩
                | .ok .satisfied u, ⟨found, hrec, hobj, hfound⟩ =>
                  exact ⟨found, hleft.recorded.trans hrec hleft.accepted,
                    hleft.recorded.objective_eq ▸ hobj, hfound⟩
                | .ok .exhausted u, ⟨found, hrec, hended⟩ =>
                  simp only
                  have hrec' := hleft.recorded.trans hrec hleft.accepted
                  have hback' := (hrec.backtrack_eq _ hopen).trans hback
                  match retract s.engine.store.depth x (s.engine.store.set x).lower u,
                    retract_spec hr hsome hrec' hback' with
                  | .error f w, hfail => exact hfail
                  | .ok c' w, ⟨hright, hbest⟩ =>
                    simp only
                    have ihright := ih hright.ready fun hc => by have := hright.slack_lt hc; omega
                    match explore fuel c' w, ihright with
                    | .error f z, hfail => exact ⟨hfail.1, fun h => hfail.2 (hright.small h)⟩
                    | .ok ending z, ⟨found', hrec'', hended'⟩ =>
                      exact ⟨found ++ found', hright.recorded.trans hrec'' hright.accepted,
                        ended_of_branches hr hleft hended hright hbest hrec'' hended'⟩

end Search

end FiniteDomain.Engine
