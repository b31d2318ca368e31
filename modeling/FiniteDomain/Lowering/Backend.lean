import FiniteDomain.ElapsedTime
import FiniteDomain.Lowering.Error
import FiniteDomain.Lowering.Event

/-!
# Backends

A backend is a solver that canonical constraints can be lowered onto. It creates one
handle for every variable, the first time the variable is met, and keeps all
constraints posted to it.

Lowering works on the state of the backend, the supply of variable numbers and the
journal. What it did before it stopped stays done.
-/

namespace FiniteDomain

/-- Why an action ends early: with an error that is reported to the caller, or because an
intermediate result does not fit into its word. -/
inductive Stop where
  | error (e : LoweringError)
  | overflow

/-- A backend, with what it shares with the session. -/
structure Lowering.State (σ : Type) where
  backend : σ
  /-- The next free variable number. -/
  nextId : VarId := 0
  /-- What has happened, oldest first. -/
  journal : Array Event := #[]

/-- An action of a backend. -/
abbrev Lowering (σ : Type) := EStateM Stop (Lowering.State σ)

namespace Lowering

variable {σ : Type}

/-- Reports an error. -/
def refuse {α : Type} (e : LoweringError) : Lowering σ α := throw (.error e)

/-- Notes an event. -/
def note (event : Event) : Lowering σ Unit :=
  modify fun s => { s with journal := s.journal.push event }

/-- Creates variables. -/
def fresh {α : Type} (action : Fresh α) : Lowering σ α := fun s =>
  let (a, nextId) := action s.nextId
  .ok a { s with nextId }

/-- The state of the backend. -/
def getBackend : Lowering σ σ := do return (← get).backend

theorem getBackend_apply (s : State σ) : getBackend s = .ok s.backend s := rfl

/-- Changes the state of the backend. -/
def modifyBackend (f : σ → σ) : Lowering σ Unit :=
  modify fun s => { s with backend := f s.backend }

end Lowering

/-- Options of a single solve. -/
structure SolveOptions where
  /-- Milliseconds. -/
  timeLimit : Option Nat := none
  deriving DecidableEq, Repr

/-- How long a solve took: measured by a clock outside of this library, or reported by
the backend. -/
inductive Runtime where
  | measured
  | reported (d : Duration)
  deriving DecidableEq, Repr

/-- A solver that canonical constraints can be lowered onto. -/
class Backend (σ : Type) where
  /-- The status vocabulary of the backend itself. -/
  NativeStatus : Type
  name : String
  /-- An objective has to be a single variable. -/
  materializesObjective : Bool
  /-- Lowers a constraint in canonical form. -/
  post : Constraint → Lowering σ Unit
  /-- Replaces the objective. -/
  setObjective : Expr → Direction → Lowering σ Unit
  solve : SolveOptions → Lowering σ NativeStatus
  /-- The status in the common vocabulary; a failure of the backend is an error. -/
  unify : NativeStatus → Lowering σ SolverStatus
  /-- How long the solve with this status took. -/
  runtime : σ → NativeStatus → Option Runtime
  /-- The value of a variable in the last solution. -/
  value : σ → Variable → Option Int
  /-- More solves than can find a solution that differs from all earlier ones in one of the
  given variables. -/
  solveBound : σ → List Variable → Nat

end FiniteDomain
