import FiniteDomain.MiniZinc.Backend
import FiniteDomain.Proofs.Engine.Narrowing

/-!
# What a run of MiniZinc leaves behind

A solve starts the executable once. What the backend knows afterwards is what it heard in that
run, whatever it knew before.
-/

namespace FiniteDomain.MiniZinc

variable {b : MiniZinc} {s : Lowering.State MiniZinc}

/-- What the next run of the executable prints: nothing if it has to be killed. -/
def printed (b : MiniZinc) (timeLimit : Option Nat) : Except LoweringError (Option Printed) :=
  match b.process.startError? b.options.executable (b.options.arguments timeLimit) with
  | some cause => .error cause
  | none =>
    match b.process.nextReply with
    | .hangs => .ok none
    | .finished stdout stderr exitCode => (Printed.ofBytes stdout stderr exitCode).map some

/-- What a text that was printed means for the program. -/
def interpret (b : MiniZinc) (p : Printed) : Except LoweringError Output :=
  parseOutput p.stdout p.stderr p.success b.program.objective.isSome

/-- What is heard in the next run of the executable. -/
def heard (b : MiniZinc) (timeLimit : Option Nat) : Except LoweringError (Option Output) :=
  match b.printed timeLimit with
  | .error e => .error e
  | .ok none => .ok none
  | .ok (some p) => (b.interpret p).map some

theorem orRefuse_apply {α : Type} (r : Except LoweringError α) (s : Lowering.State MiniZinc) :
    orRefuse r s = match r with
      | .ok a => .ok a s
      | .error e => .error (.error e) s := by
  cases r <;> rfl

/-- A run is recorded, and changes nothing else of the backend. -/
theorem run_apply (timeLimit : Option Nat) (s : Lowering.State MiniZinc) :
    match run timeLimit s with
    | .ok p s' => s.backend.printed timeLimit = .ok p ∧
        ∃ process, s'.backend = { s.backend with process }
    | .error stop _ => ∃ e, stop = .error e ∧ s.backend.printed timeLimit = .error e := by
  obtain ⟨b, nextId, journal⟩ := s
  simp only [run, printed, Bind.bind, EStateM.bind, Lowering.getBackend_apply]
  cases b.process.startError? b.options.executable (b.options.arguments timeLimit) with
  | some e => exact ⟨e, rfl, rfl⟩
  | none =>
      simp only [EStateM.bind, Lowering.modifyBackend, modify_apply]
      cases b.process.nextReply with
      | hangs => cases timeLimit <;> exact ⟨rfl, _, rfl⟩
      | finished stdout stderr exitCode =>
          simp only [EStateM.bind, orRefuse_apply]
          cases Printed.ofBytes stdout stderr exitCode with
          | error e => exact ⟨e, rfl, rfl⟩
          | ok p => exact ⟨rfl, _, rfl⟩

/-- What the backend knows after a solve. -/
structure Told (b b' : MiniZinc) (output : Option Output) (status : Status) : Prop where
  status_eq : status = (output.map (·.status)).getD .unknown
  solution_eq : b'.solution = (output.map (·.values)).getD []
  elapsed_eq : b'.elapsed = output.bind (·.elapsed)
  program_eq : b'.program = b.program

/-- A solve knows what was heard in its run, and fails if that makes no sense. -/
theorem solve_apply (options : SolveOptions) (s : Lowering.State MiniZinc) :
    match solve options s with
    | .ok status s' => ∃ output, s.backend.heard options.timeLimit = .ok output ∧
        Told s.backend s'.backend output status
    | .error stop _ => ∃ e, stop = .error e ∧ s.backend.heard options.timeLimit = .error e := by
  let silent : MiniZinc := { s.backend with solution := [], elapsed := none }
  have hrun := run_apply options.timeLimit { s with backend := silent }
  simp only [solve, heard, Bind.bind, EStateM.bind, Lowering.modifyBackend, modify_apply]
  change match run options.timeLimit { s with backend := silent } with
    | .ok p s' => s.backend.printed options.timeLimit = .ok p ∧ _
    | .error stop _ => ∃ e, stop = .error e ∧ s.backend.printed options.timeLimit = .error e at hrun
  generalize run options.timeLimit _ = r at hrun ⊢
  rcases r with ⟨_ | p, s'⟩ | ⟨stop, s'⟩
  · obtain ⟨hprinted, process, hbackend⟩ := hrun
    rw [hprinted]
    exact ⟨none, rfl, rfl, by rw [hbackend]; rfl, by rw [hbackend]; rfl, by rw [hbackend]⟩
  · obtain ⟨hprinted, process, hbackend⟩ := hrun
    obtain ⟨b, nextId, journal⟩ := s'
    subst hbackend
    rw [hprinted]
    simp only [EStateM.bind, Lowering.getBackend_apply, orRefuse_apply, interpret]
    cases parseOutput p.stdout p.stderr p.success s.backend.program.objective.isSome with
    | error e => exact ⟨e, rfl, rfl⟩
    | ok output => exact ⟨some output, rfl, rfl, rfl, rfl, rfl⟩
  · obtain ⟨e, rfl, hprinted⟩ := hrun
    exact ⟨e, rfl, by rw [hprinted]⟩

/-- Only an error of MiniZinc has no counterpart among the statuses of a session. -/
theorem unify_apply (status : Status) (s : Lowering.State MiniZinc) :
    match unify status s with
    | .ok common s' => s'.backend = s.backend ∧ common.hasSolution = status.hasSolution ∧
        (common.hasSolution = false → common = .unsatisfiable ∨ common = .unknown)
    | .error stop _ => ∃ message, status = .error message ∧ stop = .error (.miniZinc message) := by
  cases status with
  | error message => exact ⟨message, rfl, rfl⟩
  | satisfied => exact ⟨rfl, rfl, nofun⟩
  | allSolutions => exact ⟨rfl, rfl, nofun⟩
  | optimalSolution => exact ⟨rfl, rfl, nofun⟩
  | unsatisfiable => exact ⟨rfl, rfl, fun _ => .inl rfl⟩
  | unbounded => exact ⟨rfl, rfl, fun _ => .inr rfl⟩
  | unsatisfiableOrUnbounded => exact ⟨rfl, rfl, fun _ => .inr rfl⟩
  | unknown => exact ⟨rfl, rfl, fun _ => .inr rfl⟩

end FiniteDomain.MiniZinc
