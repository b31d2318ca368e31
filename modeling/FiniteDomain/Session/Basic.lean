import FiniteDomain.Expr.Evaluation
import FiniteDomain.Lowering.Backend
import FiniteDomain.Session.Normalizer

/-!
# Sessions

A session posts constraints to a backend, sets the objective, solves, and keeps the
values of the variables that it tracks: those of the constraints and objectives given to
it, in order of first use. Nothing that was posted is ever taken back, the definitions of
an earlier objective included.
-/

namespace FiniteDomain

/-- A modelling session on a backend. -/
structure Session (σ : Type) where
  lowering : Lowering.State σ
  normalizer : Normalizer := .canonical
  /-- The variables whose values are kept, in order of first use. -/
  tracked : List Variable := []
  objective : Option (Expr × Direction) := none
  status : SolverStatus := .notRun
  /-- The values of the tracked variables in the last solution. -/
  values : List (VarId × Int) := []
  objectiveValue : Option Int := none
  runtime : Option Runtime := none

namespace Session

variable {σ : Type}

/-- An action of a session. What it did before it stopped stays done. -/
abbrev Action (σ : Type) := EStateM Stop (Session σ)

/-- The value of a variable in the last solution. -/
def value (s : Session σ) (id : VarId) : Option Int := s.values.lookup id

/-- Runs an action of the backend. -/
def onBackend {α : Type} (action : Lowering σ α) : Action σ α := fun s =>
  match action s.lowering with
  | .ok a lowering => .ok a { s with lowering }
  | .error e lowering => .error e { s with lowering }

/-- Notes an event. -/
def note (event : Event) : Action σ Unit := onBackend (Lowering.note event)

/-- Keeps track of variables. -/
def track (xs : List Variable) : Action σ Unit :=
  modify fun s => { s with tracked := xs.foldl (fun tracked x => x.addTo tracked) s.tracked }

variable [Backend σ]

/-- Posts a constraint in canonical form without keeping track of its variables. -/
def postUntracked (c : Constraint) : Action σ Unit := do
  note (.posting c (Backend.name σ))
  onBackend (Backend.post c)

/-- Posts a constraint in canonical form. -/
def post (c : Constraint) : Action σ Unit := do
  track c.vars
  postUntracked c

/-- Brings a constraint into canonical form and posts the result. -/
def add (c : Constraint) : Action σ Unit := do
  let normalizer := (← get).normalizer
  let flattened ← onBackend (Lowering.fresh (normalizer.flatten c))
  let canonical ← onBackend (Lowering.fresh (normalizer.rewriteReification flattened))
  canonical.forM post

/-- Replaces the objective. A backend that needs a variable is given one that equals the
expression, and the constraints that define it. -/
def setObjective (objective : Expr) (direction : Direction) : Action σ Unit := do
  track objective.vars
  if Backend.materializesObjective σ && !objective.isAtom then
    let normalizer := (← get).normalizer
    let (x, definitions) ← onBackend (Lowering.fresh (normalizer.materialize objective))
    definitions.forM post
    track [.int x]
    onBackend (Backend.setObjective (.ofInt x) direction)
  else
    onBackend (Backend.setObjective objective direction)
  note (.objectiveSet direction objective)
  modify fun s => { s with objective := some (objective, direction) }

/-- Solves with the backend: how long it took and the status. -/
def runBackend (options : SolveOptions) : Action σ SolverStatus := do
  let native ← onBackend (Backend.solve options)
  modify fun s => { s with runtime := Backend.runtime s.lowering.backend native }
  onBackend (Backend.unify native)

/-- Keeps the values of the tracked variables. -/
def readValues : List Variable → Action σ Unit
  | [] => return ()
  | x :: xs => do
    match Backend.value (← get).lowering.backend x with
    | some v => modify fun s => { s with values := s.values ++ [(x.id, v)] }
    | none => note (.valueMissing x.name)
    readValues xs

/-- The value of the objective at the kept values. -/
def readObjective : Action σ Unit := do
  let s ← get
  match s.objective with
  | none => return ()
  | some (e, _) =>
    match e.evaluate s.value with
    | .ok v => set { s with objectiveValue := some v }
    | .error .undefined => return ()
    | .error .overflow => throw .overflow

/-- Solves the model: whether a solution was found, whose values can then be read. -/
def solve (options : SolveOptions) : Action σ Bool := do
  modify fun s => { s with values := [], objectiveValue := none, runtime := none }
  let status ← tryCatch (runBackend options) fun e => do
    modify fun s => { s with status := .error }
    throw e
  modify fun s => { s with status }
  note (.solved (Backend.name σ) status)
  if !status.hasSolution then
    return false
  readValues (← get).tracked
  readObjective
  return true

end Session

end FiniteDomain
