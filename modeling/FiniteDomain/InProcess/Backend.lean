import FiniteDomain.InProcess.Posting

/-!
# Solving with the engine
-/

namespace FiniteDomain.InProcess

open Engine (Running Statistics)

/-- The status of the engine. -/
structure Status where
  statistics : Statistics
  /-- The search optimised an objective. -/
  optimising : Bool
  deriving DecidableEq, Repr

/-- Replaces the objective, which has to be an atom. -/
def setObjective (objective : Expr) (direction : Direction) : Action Unit := do
  let v ← viewOf objective
  Lowering.modifyBackend fun b => { b with engine := b.engine.setObjective direction v }

/-- Searches; a time limit cannot be honoured. -/
def solve (options : SolveOptions) : Action Status := do
  if options.timeLimit.isSome then
    Lowering.refuse .timeLimitUnsupported
  let statistics ← onEngine Running.solve
  return { statistics, optimising := (← Lowering.getBackend).engine.objective.isSome }

/-- A complete search proves that there is no solution, or none better than the last. -/
def Status.unify (s : Status) : SolverStatus :=
  if s.statistics.solutions = 0 then
    if s.statistics.complete then .unsatisfiable else .unknown
  else if s.optimising && s.statistics.complete then .optimal
  else .feasible

/-- The value of a variable in the last solution. -/
def value (b : InProcess) (x : Variable) : Option Int :=
  (b.views.lookup x.id).bind b.engine.solutionValue

instance : Backend InProcess where
  NativeStatus := Status
  name := "api"
  materializesObjective := true
  post := post
  setObjective := setObjective
  solve := solve
  unify s := return s.unify
  runtime _ _ := some .measured
  value := value
  solveBound _ tracked := tracked.foldl (fun n x => n * x.domain.size) 1 + 1

end FiniteDomain.InProcess
