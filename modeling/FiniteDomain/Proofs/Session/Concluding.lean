import FiniteDomain.Proofs.Engine.Narrowing
import FiniteDomain.Session.Basic

/-!
# How a solve of a session proceeds

Whatever the backend is, a session forgets its last solution before it asks the backend. If the
backend answers with a solution then the session keeps the values that the backend has for the
tracked variables, and the value of the objective under these; otherwise it keeps nothing.
-/

namespace FiniteDomain.Session

variable {σ : Type} [Backend σ]

/-! ## Reading the solution -/

/-- The values that the backend has, by variable. -/
def readings (b : σ) (xs : List Variable) : List (VarId × Int) :=
  xs.filterMap fun x => (Backend.value b x).map fun v => (x.id, v)

/-- Reading notes the variables that have no value. -/
theorem readValues_apply (xs : List Variable) (s : Session σ) :
    ∃ journal, readValues xs s = .ok () { s with
      lowering := { s.lowering with journal }
      values := s.values ++ readings s.lowering.backend xs } := by
  induction xs generalizing s with
  | nil => exact ⟨s.lowering.journal, by simp [readValues, readings]; rfl⟩
  | cons x xs ih =>
      simp only [readValues, readings, Bind.bind, EStateM.bind, get_apply, List.filterMap_cons]
      cases Backend.value s.lowering.backend x with
      | none =>
          let noted := s.lowering.journal.push (.valueMissing x.name)
          exact ih { s with lowering := { s.lowering with journal := noted } }
      | some v =>
          obtain ⟨journal, h⟩ := ih { s with values := s.values ++ [(x.id, v)] }
          refine ⟨journal, h.trans ?_⟩
          simp [readings]

omit [Backend σ] in
/-- The kept value of the objective is that of its expression under the kept values. -/
theorem readObjective_apply (s : Session σ) (hnone : s.objectiveValue = none) :
    match readObjective s with
    | .ok _ s' => ∃ objectiveValue, s' = { s with objectiveValue } ∧ ∀ w, objectiveValue = some w →
        ∃ e direction, s.objective = some (e, direction) ∧ e.evaluate s.value = .ok w
    | .error e s' => s' = s ∧ e = .overflow ∧ s.objective ≠ none := by
  obtain ⟨lowering, normalizer, tracked, objective, status, values, objectiveValue, runtime⟩ := s
  subst hnone
  simp only [readObjective, Bind.bind, EStateM.bind, get_apply]
  cases objective with
  | none => exact ⟨none, rfl, by simp⟩
  | some aim =>
      obtain ⟨e, direction⟩ := aim
      simp only
      generalize hvalue : e.evaluate _ = r
      rcases r with (_ | _) | v
      · exact ⟨none, rfl, by simp⟩
      · exact ⟨rfl, rfl, by simp⟩
      · refine ⟨some v, rfl, fun w hw => ⟨e, direction, rfl, ?_⟩⟩
        rw [hvalue, Option.some.inj hw]

/-! ## Solving -/

/-- What is left to do when the backend has answered. -/
def conclude (status : SolverStatus) : Action σ Bool := do
  modify fun s => { s with status }
  note (.solved (Backend.name σ) status)
  if !status.hasSolution then
    return false
  readValues (← get).tracked
  readObjective
  return true

/-- The session before the backend is asked. -/
def cleared (s : Session σ) : Session σ :=
  { s with values := [], objectiveValue := none, runtime := none }

/-- A solve asks the backend, and concludes from its answer. A failure is only noticed in the
answer when the running time has been kept. -/
theorem solve_eq (options : SolveOptions) (s : Session σ) :
    solve options s = match (Backend.solve options : Lowering σ (Backend.NativeStatus σ)) s.lowering with
      | .error e lowering => .error e { s.cleared with lowering, status := .error }
      | .ok native lowering =>
          let runtime := Backend.runtime lowering.backend native
          match Backend.unify native lowering with
          | .error e lowering => .error e { s.cleared with lowering, runtime, status := .error }
          | .ok status lowering => conclude status { s.cleared with lowering, runtime } := by
  simp only [solve, runBackend, Bind.bind, EStateM.bind, onBackend, modify_apply, tryCatch,
    tryCatchThe, MonadExceptOf.tryCatch, EStateM.tryCatch]
  cases (Backend.solve options : Lowering σ (Backend.NativeStatus σ)) s.lowering with
  | error e lowering => rfl
  | ok native lowering =>
      simp only
      cases Backend.unify native lowering <;> rfl

theorem conclude_of_found {status : SolverStatus} (h : status.hasSolution = true)
    (s : Session σ) (hvalues : s.values = []) : ∃ journal,
    conclude status s = match readObjective { s with
        status
        lowering := { s.lowering with journal }
        values := readings s.lowering.backend s.tracked } with
      | .ok _ s => .ok true s
      | .error e s => .error e s := by
  obtain ⟨lowering, normalizer, tracked, objective, old, values, objectiveValue, runtime⟩ := s
  subst hvalues
  let s₁ : Session σ :=
    ⟨lowering, normalizer, tracked, objective, status, [], objectiveValue, runtime⟩
  let noted := lowering.journal.push (.solved (Backend.name σ) status)
  obtain ⟨journal, hread⟩ := readValues_apply tracked
    { s₁ with lowering := { lowering with journal := noted } }
  have hrest : conclude status { s₁ with status := old } = (do
      readValues tracked
      readObjective
      return true : Action σ Bool)
        { s₁ with lowering := { lowering with journal := noted } } := by
    simp only [conclude, h]
    rfl
  refine ⟨journal, hrest.trans ?_⟩
  simp only [Bind.bind, EStateM.bind, hread, s₁, List.nil_append]
  cases readObjective _ <;> rfl

theorem conclude_of_not_found {status : SolverStatus} (h : status.hasSolution = false)
    (s : Session σ) : ∃ journal,
    conclude status s = .ok false { s with status, lowering := { s.lowering with journal } } := by
  refine ⟨s.lowering.journal.push (.solved (Backend.name σ) status), ?_⟩
  simp only [conclude, h]
  rfl

end FiniteDomain.Session
