import FiniteDomain.Text.Quoted

/-!
# The status vocabulary of MiniZinc
-/

namespace FiniteDomain.MiniZinc

/-- How a run of MiniZinc ended. -/
inductive Status where
  /-- At least one solution was found. -/
  | satisfied
  /-- Every solution of a satisfaction problem was found. -/
  | allSolutions
  | optimalSolution
  | unsatisfiable
  | unbounded
  | unsatisfiableOrUnbounded
  /-- The search stopped without a solution and without a proof that there is none. -/
  | unknown
  /-- MiniZinc or the solver failed, with the message it printed. -/
  | error (message : String)
  deriving DecidableEq, Repr

/-- The status in log messages. -/
def Status.text : Status → String
  | satisfied => "Satisfied"
  | allSolutions => "AllSolutions"
  | optimalSolution => "OptimalSolution"
  | unsatisfiable => "Unsatisfiable"
  | unbounded => "Unbounded"
  | unsatisfiableOrUnbounded => "UnsatisfiableOrUnbounded"
  | unknown => "Unknown"
  | error message => "Error(" ++ Text.quote message ++ ")"

end FiniteDomain.MiniZinc
