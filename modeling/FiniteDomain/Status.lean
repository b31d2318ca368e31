/-!
# The status of a session
-/

namespace FiniteDomain

/-- What is known about the model after the last solve, whatever the backend. -/
inductive SolverStatus where
  /-- No solve has been attempted. -/
  | notRun
  | feasible
  /-- A solution was found, and none is better. -/
  | optimal
  | unsatisfiable
  | error
  /-- The backend stopped without a solution and without a proof that there is none. -/
  | unknown
  deriving DecidableEq, Repr

namespace SolverStatus

/-- A solve with this status has found a solution. -/
def hasSolution : SolverStatus → Bool
  | feasible => true
  | optimal => true
  | _ => false

/-- The name of the status. -/
def text : SolverStatus → String
  | notRun => "NOT_RUN"
  | feasible => "FEASIBLE"
  | optimal => "OPTIMAL"
  | unsatisfiable => "UNSATISFIABLE"
  | error => "ERROR"
  | unknown => "UNKNOWN"

end SolverStatus

end FiniteDomain
