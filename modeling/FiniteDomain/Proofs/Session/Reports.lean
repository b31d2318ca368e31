import FiniteDomain.Proofs.MiniZinc.Runs
import FiniteDomain.Proofs.Session.Solving

/-!
# What a session reports after a solve

The report belongs to the last solve alone. If a solution was found then every value is one of
that solution; if none was found, or the solve failed, then there are no values. A failure also
leaves no running time, unless it is MiniZinc itself that reports an error: the time that it has
printed by then is kept.
-/

namespace FiniteDomain

/-- The values of the solution that a search finds which starts without one. -/
def InProcess.finds (b : InProcess) (x : Variable) : Option Int :=
  match Engine.Running.solve { b.engine with solution := none, journal := #[] } with
  | .ok _ e => (b.views.lookup x.id).bind e.solutionValue
  | .error _ _ => none

namespace InProcess

/-- A search does not depend on the solution of an earlier one. -/
theorem finds_of_solve (options : SolveOptions) (s : Lowering.State InProcess) :
    match solve options s with
    | .ok _ s' => ∀ x, value s'.backend x = s.backend.finds x
    | .error _ _ => True := by
  cases hlimit : options.timeLimit with
  | some limit => simp only [solve, hlimit, Option.isSome_some, if_true]; trivial
  | none =>
      have hforget : Engine.Running.solve { s.backend.engine with solution := none, journal := #[] } =
          Engine.Running.solve { s.backend.engine with journal := #[] } := by
        rw [Engine.solve_eq, Engine.solve_eq]
        rfl
      rw [solve_eq hlimit, onEngine]
      simp only [finds, hforget]
      cases Engine.Running.solve { s.backend.engine with journal := #[] } with
      | error f e => trivial
      | ok statistics e => exact fun x => rfl

/-- Without a solution the status is one of two. -/
theorem unify_of_not_found {status : Status} (h : status.unify.hasSolution = false) :
    status.unify = .unsatisfiable ∨ status.unify = .unknown := by
  revert h
  unfold Status.unify
  repeat' split
  · exact fun _ => .inl rfl
  · exact fun _ => .inr rfl
  · exact nofun
  · exact nofun

end InProcess

namespace MiniZinc

/-- The values in the output of the next run. -/
def finds (b : MiniZinc) (timeLimit : Option Nat) (x : Variable) : Option Int :=
  match b.heard timeLimit with
  | .ok (some output) => (b.program.name? x.id).bind fun name => output.values.lookup name
  | _ => none

/-- The elapsed time in the output of the next run, if MiniZinc reports an error. -/
def failsAfter (b : MiniZinc) (timeLimit : Option Nat) : Option Runtime :=
  match b.heard timeLimit with
  | .ok (some ⟨.error _, _, _, elapsed⟩) => elapsed.map .reported
  | _ => none

variable {b b' : MiniZinc} {output : Option Output} {status : Status} {timeLimit : Option Nat}

/-- The values of the backend are those of the output. -/
theorem Told.value_eq (h : Told b b' output status) (hheard : b.heard timeLimit = .ok output)
    (x : Variable) : value b' x = b.finds timeLimit x := by
  simp only [value, finds, hheard, h.program_eq, h.solution_eq]
  cases output with
  | none => cases b.program.name? x.id <;> rfl
  | some output => rfl

/-- The elapsed time of the backend is that of the failure. -/
theorem Told.failsAfter_eq {message : String} (h : Told b b' output (.error message))
    (hheard : b.heard timeLimit = .ok output) :
    b'.elapsed.map Runtime.reported = b.failsAfter timeLimit := by
  simp only [failsAfter, hheard, h.elapsed_eq]
  cases output with
  | none => rfl
  | some output =>
      obtain ⟨status, values, objective, elapsed⟩ := output
      obtain rfl : .error message = status := h.status_eq
      rfl

end MiniZinc

namespace Session

variable {σ : Type} {options : SolveOptions} {solution : Variable → Option Int}
  {failsAfter : Option Runtime}

/-- No value is reported. -/
structure Bare (s : Session σ) : Prop where
  values_eq : s.values = []
  objectiveValue_eq : s.objectiveValue = none

/-- The values that are reported are those of the solution for the tracked variables, and that
of the objective under these. -/
structure Shows (solution : Variable → Option Int) (s : Session σ) : Prop where
  values_eq : s.values = s.tracked.filterMap fun x => (solution x).map fun v => (x.id, v)
  objectiveValue : ∀ w, s.objectiveValue = some w →
    ∃ e direction, s.objective = some (e, direction) ∧ e.evaluate s.value = .ok w

/-- What is reported agrees with the outcome, for a solve that finds the solution or fails after
the running time. -/
def Reports (solution : Variable → Option Int) (failsAfter : Option Runtime) :
    EStateM.Result Stop (Session σ) Bool → Prop
  | .ok true s => (s.status = .feasible ∨ s.status = .optimal) ∧ Shows solution s
  | .ok false s => (s.status = .unsatisfiable ∨ s.status = .unknown) ∧ Bare s
  | .error (.error _) s => s.status = .error ∧ Bare s ∧ s.runtime = failsAfter
  | .error .overflow _ => True

variable [Backend σ] {s : Session σ}

theorem reports_conclude {status : SolverStatus} (hvalues : s.values = [])
    (hnone : s.objectiveValue = none)
    (hfound : status.hasSolution = true → ∀ x, Backend.value s.lowering.backend x = solution x)
    (hdecided : status.hasSolution = false → status = .unsatisfiable ∨ status = .unknown) :
    Reports solution failsAfter (conclude status s) := by
  cases hstatus : status.hasSolution with
  | false =>
      obtain ⟨journal, hconclude⟩ := conclude_of_not_found hstatus s
      rw [hconclude]
      exact ⟨hdecided hstatus, hvalues, hnone⟩
  | true =>
      obtain ⟨journal, hconclude⟩ := conclude_of_found hstatus s hvalues
      rw [hconclude]
      have hread := readObjective_apply { s with
        status
        lowering := { s.lowering with journal }
        values := readings s.lowering.backend s.tracked } hnone
      generalize readObjective _ = r at hread
      rcases r with ⟨_, s'⟩ | ⟨stop, s'⟩
      · obtain ⟨objectiveValue, rfl, hvalue⟩ := hread
        refine ⟨?_, ?_, hvalue⟩
        · cases status <;> simp_all [SolverStatus.hasSolution]
        · simp only [readings, hfound hstatus]
      · obtain ⟨-, rfl, -⟩ := hread
        trivial

/-- A session on the engine reports the solution of its search, and no time if it fails. -/
theorem reports_inProcess (options : SolveOptions) (s : Session InProcess) :
    Reports s.lowering.backend.finds none (solve options s) := by
  have hsearch := InProcess.finds_of_solve options s.lowering
  rw [solve_inProcess]
  generalize InProcess.solve options s.lowering = r at hsearch ⊢
  rcases r with ⟨status, lowering⟩ | ⟨stop, lowering⟩
  · exact reports_conclude rfl rfl (fun _ => hsearch) InProcess.unify_of_not_found
  · cases stop with
    | overflow => trivial
    | error e => exact ⟨rfl, ⟨rfl, rfl⟩, rfl⟩

theorem solve_miniZinc (options : SolveOptions) (s : Session MiniZinc) :
    solve options s = match MiniZinc.solve options s.lowering with
      | .error e lowering => .error e { s.cleared with lowering, status := .error }
      | .ok status lowering =>
          let runtime := lowering.backend.elapsed.map .reported
          match MiniZinc.unify status lowering with
          | .error e lowering => .error e { s.cleared with lowering, runtime, status := .error }
          | .ok common lowering => conclude common { s.cleared with lowering, runtime } := by
  have hsolve : (Backend.solve options : Lowering MiniZinc MiniZinc.Status) s.lowering =
    MiniZinc.solve options s.lowering := rfl
  rw [solve_eq, hsolve]
  cases MiniZinc.solve options s.lowering with
  | error e lowering => rfl
  | ok status lowering =>
      have hunify : (Backend.unify status : Lowering MiniZinc SolverStatus) lowering =
        MiniZinc.unify status lowering := rfl
      simp only [hunify]
      cases MiniZinc.unify status lowering <;> rfl

/-- A session on MiniZinc reports the solution in the output of its run. -/
theorem reports_miniZinc (options : SolveOptions) (s : Session MiniZinc) :
    Reports (s.lowering.backend.finds options.timeLimit)
      (s.lowering.backend.failsAfter options.timeLimit) (solve options s) := by
  have hrun := MiniZinc.solve_apply options s.lowering
  rw [solve_miniZinc]
  generalize MiniZinc.solve options s.lowering = r at hrun ⊢
  rcases r with ⟨status, lowering⟩ | ⟨stop, lowering⟩
  · obtain ⟨output, hheard, htold⟩ := hrun
    have hunify := MiniZinc.unify_apply status lowering
    simp only
    generalize MiniZinc.unify status lowering = r at hunify ⊢
    rcases r with ⟨common, lowering'⟩ | ⟨stop, lowering'⟩
    · obtain ⟨hbackend, hsolution, hdecided⟩ := hunify
      refine reports_conclude rfl rfl (fun hfound x => ?_) hdecided
      have hvalue := htold.value_eq hheard x
      rwa [← hbackend] at hvalue
    · obtain ⟨message, rfl, rfl⟩ := hunify
      refine ⟨rfl, ⟨rfl, rfl⟩, ?_⟩
      exact htold.failsAfter_eq hheard
  · obtain ⟨e, rfl, hheard⟩ := hrun
    exact ⟨rfl, ⟨rfl, rfl⟩, by simp only [MiniZinc.failsAfter, hheard]; rfl⟩

/-- The report of a session matches the outcome of its last solve, whatever the session has been
through and whatever the executable prints: values are those of the solution that this solve
finds, and only an error that MiniZinc reports leaves a running time. -/
theorem report_matches_outcome (options : SolveOptions) :
    (∀ s : Session InProcess, Reports s.lowering.backend.finds none (solve options s)) ∧
      ∀ s : Session MiniZinc, Reports (s.lowering.backend.finds options.timeLimit)
        (s.lowering.backend.failsAfter options.timeLimit) (solve options s) :=
  ⟨reports_inProcess options, reports_miniZinc options⟩

section FailingRun

/-- A session whose next run reports an error after a quarter of a second. -/
def failingRun : Session MiniZinc :=
  let stdout := "=====ERROR=====\n% time elapsed: 0.25 s\n".toUTF8
  { lowering.backend.process.replies := [.finished stdout .empty 0] }

/-- The solve fails, but there is a running time. -/
theorem runtime_of_failingRun : ∃ e s, solve {} failingRun = .error (.error e) s ∧
    s.status = .error ∧ s.runtime = some (.reported ⟨0, 250000000⟩) := by
  have hrun : (match solve {} failingRun with
    | .error (.error _) s =>
        s.status = .error && s.runtime = some (.reported ⟨0, 250000000⟩)
    | _ => false) = true := by decide +kernel
  split at hrun
  · next e s hsolve =>
      obtain ⟨hstatus, hruntime⟩ := Bool.and_eq_true_iff.mp hrun
      exact ⟨e, s, hsolve, of_decide_eq_true hstatus, of_decide_eq_true hruntime⟩
  · cases hrun

end FailingRun

end Session

end FiniteDomain
