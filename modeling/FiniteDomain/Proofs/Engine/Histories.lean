import FiniteDomain.Proofs.Engine.Requests
import FiniteDomain.Proofs.Engine.Termination

/-!
# Histories of an engine

A history is a sequence of calls, each a request or a search. Two engines that differ in their
journals alone cannot be told apart by any call, and before the next search they may differ in
the solution they hold as well: a search forgets it first. A search leaves exactly such an
engine behind, so one more search anywhere in a history changes nothing that is seen later.
-/

namespace FiniteDomain.Engine

open Narrowing

variable {keep consistent : Bool} {e e' : Engine} {x : VarIndex} {value : Int}

/-- The engine without its journal, and without its solution unless that is kept. -/
def erase (keep : Bool) (e : Engine) : Engine :=
  { e with journal := #[], solution := if keep then e.solution else none }

/-- The engines differ in their journals at most, and in their solutions unless these are kept. -/
def Alike (keep : Bool) (e e' : Engine) : Prop := e'.erase keep = e.erase keep

namespace Alike

theorem store_eq (h : Alike keep e e') : e'.store = e.store := congrArg (·.store) h

theorem propagators_eq (h : Alike keep e e') : e'.propagators = e.propagators :=
  congrArg (·.propagators) h

theorem toQueue_eq (h : Alike keep e e') : e'.toQueue = e.toQueue := congrArg (·.toQueue) h

theorem objective_eq (h : Alike keep e e') : e'.objective = e.objective := congrArg (·.objective) h

theorem infeasible_eq (h : Alike keep e e') : e'.infeasible = e.infeasible :=
  congrArg (·.infeasible) h

theorem solution_eq (h : Alike true e e') : e'.solution = e.solution := congrArg (·.solution) h

/-- What does not look at the journal or the solution keeps engines alike. -/
theorem map (h : Alike keep e e') (f : Engine → Engine)
    (hf : ∀ e, (f e).erase keep = (f (e.erase keep)).erase keep) : Alike keep (f e) (f e') := by
  rw [Alike, hf, h, ← hf]

/-- Noting an event keeps engines alike, whatever is noted. -/
theorem note (h : Alike keep e e') (event event' : Event) :
    Alike keep (e.note event) (e'.note event') := h

theorem withStore (h : Alike keep e e') (s : Store) : Alike keep (e.withStore s) (e'.withStore s) :=
  h.map (·.withStore s) fun _ => by cases keep <;> rfl

theorem withQueue (h : Alike keep e e') (q : Queue) :
    Alike keep (e.withQueue q) (e'.withQueue q) :=
  h.map (·.withQueue q) fun _ => by cases keep <;> rfl

theorem next (h : Alike keep e e') (i : Nat) (rest : List Nat) :
    Alike keep (e.next i rest) (e'.next i rest) :=
  h.map (·.next i rest) fun _ => by cases keep <;> rfl

theorem forgetful (h : Alike keep e e') : Alike true e.forgetful e'.forgetful :=
  congrArg Engine.forgetful h

theorem weaken (h : Alike true e e') : Alike false e e' :=
  congrArg Engine.forgetful h

end Alike

/-! ## Propagating and posting -/

theorem blind_onStore {α : Type} (action : Narrowing α) :
    Blind (Alike keep) (Running.onStore action) := by
  intro e e' h
  simp only [Running.onStore, h.store_eq]
  cases action e.store with
  | ok a s => exact .ok a (h.withStore s)
  | error f s => exact .error f (h.withStore s)

theorem blind_runPropagator (i : Nat) : Blind (Alike keep) (Running.runPropagator i) := by
  intro e e' h
  rw [Running.runPropagator, Running.runPropagator, h.propagators_eq]
  cases e.propagators[i]? with
  | none => exact .ok () h
  | some p =>
      have hstore := blind_onStore p.propagate e e' h
      simp only
      generalize Running.onStore p.propagate e = r, Running.onStore p.propagate e' = r' at hstore ⊢
      cases hstore with
      | ok _ hs => exact .ok () hs
      | error f hs =>
          cases f with
          | conflict =>
              exact .error .conflict ((hs.map settle fun _ => by cases keep <;> rfl).note _ _)
          | overflow => exact .error .overflow hs

theorem blind_runWaiting (count : Nat) : Blind (Alike keep) (Running.runWaiting count) := by
  induction count with
  | zero => exact fun e e' h => .ok () h
  | succ count ih =>
      intro e e' h
      have hwake : Alike keep (wake e) (wake e') := h.map wake fun _ => by cases keep <;> rfl
      rw [runWaiting_succ, runWaiting_succ, hwake.toQueue_eq]
      cases (wake e).agenda with
      | nil => exact .ok () hwake
      | cons i rest =>
          simp only
          match Running.runPropagator i ((wake e).next i rest),
            Running.runPropagator i ((wake e').next i rest),
            blind_runPropagator i _ _ (hwake.next i rest) with
          | _, _, .ok _ hs => exact ih _ _ hs
          | _, _, .error f hs => exact .error f hs

theorem blind_propagate : Blind (Alike keep) Running.propagate := by
  intro e e' h
  have hwaiting : Blind (Alike keep) (Running.runWaiting
      ((e.store.potential + 1) * (e.propagators.size + 1) + 1)) := blind_runWaiting _
  have hrun := hwaiting e e' h
  rwa [show Running.propagate e' = Running.runWaiting
      ((e.store.potential + 1) * (e.propagators.size + 1) + 1) e' by
    rw [← h.store_eq, ← h.propagators_eq]; rfl]

theorem blind_succeeds {action : Running Unit} (h : Blind (Alike keep) action) :
    Blind (Alike keep) (Running.succeeds action) := by
  intro e e' he
  have hrun := h e e' he
  rw [Running.succeeds, Running.succeeds]
  generalize action e = r, action e' = r' at hrun ⊢
  cases hrun with
  | ok _ hs => exact .ok true hs
  | error f hs =>
      cases f with
      | conflict => exact .ok false hs
      | overflow => exact .error .overflow hs

theorem blind_post (p : Propagator) : Blind (Alike keep) (Running.post p) := by
  intro e e' h
  have henlisted : Alike keep (e.enlisted p) (e'.enlisted p) :=
    h.map (·.enlisted p) fun _ => by cases keep <;> rfl
  rw [post_eq, post_eq, h.infeasible_eq]
  split
  · exact .ok () (h.note _ _)
  · match Running.propagate (e.enlisted p), Running.propagate (e'.enlisted p),
      blind_propagate _ _ henlisted with
    | _, _, .ok _ hs => exact .ok () hs
    | _, _, .error .conflict hs =>
      exact .ok () (hs.map (·.refuted p) fun _ => by cases keep <;> rfl)
    | _, _, .error .overflow hs => exact .error .overflow hs

theorem alike_addVariable (h : Alike keep e e') (d : ValueSet) (name : String) :
    Alike keep (e.addVariable d name).2 (e'.addVariable d name).2 :=
  h.map (fun e => (e.addVariable d name).2) fun _ => by cases keep <;> rfl

/-- A request does not look at the journal or the solution. -/
theorem blind_perform (r : Request) : Blind (Alike keep) r.perform := by
  intro e e' h
  cases r with
  | boolean name => exact .ok _ (alike_addVariable h _ name)
  | interval lower upper name =>
      refine .ok _ (show Alike keep (Request.created e (e.createInterval lower upper name))
        (Request.created e' (e'.createInterval lower upper name)) from ?_)
      rw [createInterval, createInterval]
      split
      · exact h
      · exact alike_addVariable h _ name
  | oneOf values name =>
      refine .ok _ (show Alike keep (Request.created e (e.createValues values name))
        (Request.created e' (e'.createValues values name)) from ?_)
      rw [createValues, createValues]
      cases ValueSet.ofValues? values with
      | none => exact h
      | some d => exact alike_addVariable h d name
  | rule r condition =>
      rw [Request.perform, enforce_eq]
      exact blind_post _ e e' h
  | implication antecedent consequent condition =>
      rw [Request.perform, enforce_eq]
      exact blind_post _ e e' h
  | linear terms coefficients constant =>
      rw [perform_linear, perform_linear]
      split
      · exact .ok () h
      · exact blind_post _ e e' h
  | objective direction v =>
      exact .ok _ (h.map (·.setObjective direction v) fun _ => by cases keep <;> rfl)

/-! ## Searching -/

theorem blind_decide (x : VarIndex) (value : Int) : Blind (Alike keep) (Running.decide x value) :=
  (blind_onStore _).bind fun _ => blind_propagate

theorem blind_refute (x : VarIndex) (value : Int) (best : Option Int) :
    Blind (Alike keep) (Running.refute x value best) := by
  intro e e' h
  rw [refute_eq, refute_eq, h.objective_eq]
  exact (blind_onStore _).bind (fun _ => blind_propagate) e e' h

namespace Search

/-- The searches have counted and found the same in engines that are alike. -/
structure Alike (keep : Bool) (s s' : Search) : Prop where
  engine : Engine.Alike keep s.engine s'.engine
  statistics : s'.statistics = s.statistics
  best : s'.best = s.best

theorem blind_accept : Blind (Alike keep) accept := by
  intro s s' h
  have hrecorded : Engine.Alike keep (recordSolution s.engine) (recordSolution s'.engine) :=
    h.engine.map recordSolution fun _ => by cases keep <;> rfl
  have hcounted : s'.counted.statistics = s.counted.statistics := by
    simp only [counted, h.statistics]
  rw [accept_eq, accept_eq, h.engine.objective_eq]
  cases s.engine.objective with
  | none => exact .ok _ ⟨hrecorded, hcounted, h.best⟩
  | some objective =>
      obtain ⟨direction, v⟩ := objective
      have hvalue : s'.engine.lowerBound v = s.engine.lowerBound v := by
        rw [Engine.lowerBound, Engine.lowerBound, h.engine.store_eq]
      exact .ok _ ⟨hrecorded.note _ _, hcounted, congrArg some hvalue⟩

theorem blind_branch (x : VarIndex) (value : Int) : Blind (Alike keep) (branch x value) := by
  intro s s' h
  have hopened : Engine.Alike keep (opened s.engine x value) (opened s'.engine x value) := by
    rw [opened, opened, h.engine.store_eq]
    exact (h.engine.note _ _).withStore _
  have hdecided : s'.decided.statistics = s.decided.statistics := by
    simp only [decided, h.statistics]
  have hrun := blind_succeeds (blind_decide x value) _ _ hopened
  rw [branch_eq, branch_eq]
  generalize Running.succeeds (Running.decide x value) (opened s.engine x value) = r,
    Running.succeeds (Running.decide x value) (opened s'.engine x value) = r' at hrun ⊢
  cases hrun with
  | ok c hs => exact .ok c ⟨hs, hdecided, h.best⟩
  | error f hs => exact .error f ⟨hs, hdecided, h.best⟩

theorem blind_retract (depth : Nat) (x : VarIndex) (value : Int) :
    Blind (Alike keep) (retract depth x value) := by
  intro s s' h
  rw [retract_eq, retract_eq, h.best, h.engine.store_eq]
  match Running.succeeds (Running.refute x value s.best) (s.engine.withStore _),
    Running.succeeds (Running.refute x value s.best) (s'.engine.withStore _),
    blind_succeeds (blind_refute x value s.best) _ _
      (h.engine.withStore (s.engine.store.backtrack depth)) with
  | _, _, .ok c hs => exact .ok c ⟨hs, h.statistics, h.best⟩
  | _, _, .error f hs => exact .error f ⟨hs, h.statistics, h.best⟩

theorem blind_fail : Blind (Alike keep) fail := by
  intro s s' h
  refine .ok _ ⟨h.engine, ?_, h.best⟩
  simp only [h.statistics]

theorem blind_explore (fuel : Nat) (consistent : Bool) :
    Blind (Alike keep) (explore fuel consistent) := by
  induction fuel generalizing consistent with
  | zero => cases consistent <;> exact fun s s' h => .ok _ h
  | succ fuel ih =>
      cases consistent with
      | false => exact blind_fail
      | true =>
          intro s s' h
          rw [explore_succ, explore_succ, h.engine.store_eq]
          cases s.engine.store.narrowestUnfixed with
          | none => exact blind_accept s s' h
          | some x =>
              have hbranch := blind_branch x (s.engine.store.set x).lower s s' h
              simp only
              generalize branch x (s.engine.store.set x).lower s = r,
                branch x (s.engine.store.set x).lower s' = r' at hbranch ⊢
              cases hbranch with
              | error f hs => exact .error f hs
              | @ok t t' c ht =>
                  have hleft := ih c t t' ht
                  simp only
                  generalize explore fuel c t = r, explore fuel c t' = r' at hleft ⊢
                  cases hleft with
                  | error f hs => exact .error f hs
                  | @ok u u' ending hu =>
                      cases ending with
                      | satisfied => exact .ok _ hu
                      | exhausted =>
                          have hretract := blind_retract s.engine.store.depth x
                            (s.engine.store.set x).lower u u' hu
                          simp only
                          generalize retract s.engine.store.depth x (s.engine.store.set x).lower u = r,
                            retract s.engine.store.depth x (s.engine.store.set x).lower u' = r'
                            at hretract ⊢
                          cases hretract with
                          | error f hs => exact .error f hs
                          | ok c hw => exact ih c _ _ hw

end Search

theorem blind_search : Blind (Alike keep) Running.search := by
  intro e e' h
  have hstarted : Alike keep (started e) (started e') := by
    rw [started_eq, started_eq, h.store_eq, h.propagators_eq, h.toQueue_eq]
    exact (h.withStore _).withQueue _
  rw [search_eq, search_eq, hstarted.store_eq, h.store_eq]
  have hfirst := blind_succeeds blind_propagate _ _ hstarted
  generalize Running.succeeds Running.propagate (started e) = r,
    Running.succeeds Running.propagate (started e') = r' at hfirst ⊢
  cases hfirst with
  | error f hs => exact .error f hs
  | @ok e₁ e₁' c hs =>
      have hexplore := Search.blind_explore (started e).store.potential c { engine := e₁ }
        { engine := e₁' } ⟨hs, rfl, rfl⟩
      simp only
      generalize Search.explore _ c { engine := e₁ } = r,
        Search.explore _ c { engine := e₁' } = r' at hexplore ⊢
      cases hexplore with
      | error f ht => exact .error f ht.engine
      | ok ending ht =>
          simp only [ht.statistics, ht.engine.store_eq]
          exact .ok _ (ht.engine.withStore _)

/-- A search forgets the solution before it starts, and then finds the same solution. -/
theorem same_solve (h : Alike false e e') :
    Same (Alike true) (Running.solve e) (Running.solve e') := by
  rw [solve_eq, solve_eq, h.infeasible_eq]
  split
  · exact .ok _ h.forgetful
  · exact blind_search _ _ h.forgetful

/-! ## Histories -/

/-- A call of an engine. -/
inductive Call where
  | request (r : Request)
  | solve

/-- What the engine does at a call; a search has an outcome. -/
def Call.perform : Call → Running (Option Statistics)
  | request r => do
    r.perform
    return none
  | solve => do return some (← Running.solve)

/-- What the engine does at a sequence of calls. -/
def history (calls : List Call) : Running Unit := calls.forM fun c => discard c.perform

/-- What can be seen of an engine between two calls. -/
structure Sight where
  lowerBound : View → Int
  upperBound : View → Int
  contains : View → Int → Bool
  objective : Option (Direction × View)

/-- What is seen of the engine. -/
def sight (e : Engine) : Sight where
  lowerBound := e.lowerBound
  upperBound := e.upperBound
  contains := e.store.contains
  objective := e.objective

/-- What is seen after a call: the engine, and after a search its outcome and the values of all
views in the solution. -/
structure Report where
  sight : Sight
  answer : Option (Statistics × (View → Option Int))

/-- What is seen after every call of a sequence, and the failure that ended it, if any. -/
def reports : List Call → Engine → List Report × Option Failure
  | [], _ => ([], none)
  | c :: cs, e =>
    match c.perform e with
    | .error f _ => ([], some f)
    | .ok outcome e' =>
      (⟨e'.sight, outcome.map fun s => (s, e'.solutionValue)⟩ :: (reports cs e').1,
        (reports cs e').2)

theorem Alike.sight_eq (h : Alike keep e e') : e'.sight = e.sight := by
  have hlower : e'.lowerBound = e.lowerBound := funext fun v => by
    rw [lowerBound, lowerBound, h.store_eq]
  have hupper : e'.upperBound = e.upperBound := funext fun v => by
    rw [upperBound, upperBound, h.store_eq]
  rw [sight, sight, hlower, hupper, h.store_eq, h.objective_eq]

theorem Alike.solutionValue_eq (h : Alike true e e') : e'.solutionValue = e.solutionValue := by
  funext v
  cases v with
  | constant c => rfl
  | affine x negated offset => rw [solutionValue, solutionValue, h.solution_eq]

theorem request_perform (r : Request) (e : Engine) :
    (Call.request r).perform e = match r.perform e with
      | .ok _ e' => .ok none e'
      | .error f e' => .error f e' := by
  simp only [Call.perform, bind, EStateM.bind]
  cases r.perform e <;> rfl

theorem solve_perform (e : Engine) :
    Call.solve.perform e = match Running.solve e with
      | .ok outcome e' => .ok (some outcome) e'
      | .error f e' => .error f e' := by
  simp only [Call.perform, bind, EStateM.bind]
  cases Running.solve e <;> rfl

/-- Engines that are alike cannot be told apart by what is seen of them later. -/
theorem Alike.reports_eq (calls : List Call) (h : Alike false e e') :
    reports calls e' = reports calls e := by
  induction calls generalizing e e' with
  | nil => rfl
  | cons c cs ih =>
      rw [reports, reports]
      cases c with
      | request r =>
          rw [request_perform, request_perform]
          match r.perform e, r.perform e', blind_perform r e e' h with
          | _, _, .error f hs => rfl
          | _, _, .ok _ hs => simp only [Option.map_none, hs.sight_eq, ih hs]
      | solve =>
          rw [solve_perform, solve_perform]
          match Running.solve e, Running.solve e', same_solve h with
          | _, _, .error f hs => rfl
          | _, _, .ok outcome hs =>
            simp only [Option.map_some, hs.sight_eq, hs.solutionValue_eq, ih hs.weaken]

end FiniteDomain.Engine
