import FiniteDomain.MiniZinc.Output
import FiniteDomain.MiniZinc.Process
import FiniteDomain.MiniZinc.Program

/-!
# MiniZinc as a backend

Constraints are collected in a program, which the executable runs. The solve item is only
added when the program is run, so the objective can be replaced until then.
-/

namespace FiniteDomain

/-- The program so far, and what the last run told. -/
structure MiniZinc where
  options : MiniZinc.Options := {}
  program : MiniZinc.Program := {}
  process : MiniZinc.Process := {}
  /-- The values in the last solution, by name. -/
  solution : List (String × Int) := []
  /-- The elapsed time of the last run. -/
  elapsed : Option Duration := none

namespace MiniZinc

/-- An action of the backend. -/
abbrev Action := Lowering MiniZinc

/-- Extends the program, and notes the variables that were declared. -/
def extend (f : Program → Program) : Action Unit := do
  let before := (← Lowering.getBackend).program
  let after := f before
  Lowering.modifyBackend fun b => { b with program := after }
  (after.declarations.toList.drop before.declarations.size).forM fun d =>
    Lowering.note (.declared d.text)

/-- The name of a variable, which is declared when it is met for the first time. -/
def bind (x : Variable) : Action String := do
  extend (·.declare x)
  return (← Lowering.getBackend).program.names x.id

/-- The number of variables that have been declared. -/
def numBound (b : MiniZinc) : Nat := b.program.declarations.size

/-- Adds a constraint to the program. -/
def post (c : Constraint) : Action Unit := do
  extend (·.addConstraint c)
  Lowering.note (.constraintWritten (renderConstraint (← Lowering.getBackend).program.names c))

/-- Replaces the objective of the program. -/
def setObjective (objective : Expr) (direction : Direction) : Action Unit := do
  extend (·.setObjective objective direction)
  Lowering.note (.solveWritten (← Lowering.getBackend).program.solveItem)

/-- A result that may be an error. -/
def orRefuse {α : Type} : Except LoweringError α → Action α
  | .ok a => return a
  | .error e => Lowering.refuse e

/-- Runs the executable on the program. There is nothing if it had to be killed. -/
def run (timeLimit : Option Nat) : Action (Option Printed) := do
  let b ← Lowering.getBackend
  let arguments := b.options.arguments timeLimit
  if let some cause := b.process.startError? b.options.executable arguments then
    Lowering.refuse cause
  let process := b.process.record arguments b.program.text
  Lowering.modifyBackend fun b => { b with process }
  match b.process.nextReply with
  | .finished stdout stderr exitCode =>
    return some (← orRefuse (Printed.ofBytes stdout stderr exitCode))
  | .hangs =>
    if let some limit := timeLimit then
      Lowering.note (.runKilled (limit + b.options.gracePeriod))
    return none

/-- Runs the program and interprets what is printed. A run that was killed tells nothing. -/
def solve (options : SolveOptions) : Action Status := do
  Lowering.modifyBackend fun b => { b with solution := [], elapsed := none }
  let some printed ← run options.timeLimit
    | return .unknown
  let optimising := (← Lowering.getBackend).program.objective.isSome
  let output ← orRefuse (parseOutput printed.stdout printed.stderr printed.success optimising)
  Lowering.note (.runFinished output.status output.objective)
  Lowering.modifyBackend fun b =>
    { b with solution := output.values, elapsed := output.elapsed }
  return output.status

/-- The status in the common vocabulary. Whether an unbounded problem has a solution is
not known. -/
def unify : Status → Action SolverStatus
  | .satisfied => return .feasible
  | .allSolutions => return .feasible
  | .optimalSolution => return .optimal
  | .unsatisfiable => return .unsatisfiable
  | .unknown => return .unknown
  | .unbounded => do
    Lowering.note (.treatedAsUnknown .unbounded)
    return .unknown
  | .unsatisfiableOrUnbounded => do
    Lowering.note (.treatedAsUnknown .unsatisfiableOrUnbounded)
    return .unknown
  | .error message => Lowering.refuse (.miniZinc message)

/-- The value of a variable in the last solution. -/
def value (b : MiniZinc) (x : Variable) : Option Int :=
  (b.program.name? x.id).bind fun name => b.solution.lookup name

instance : Backend MiniZinc where
  NativeStatus := Status
  name := "minizinc"
  materializesObjective := false
  post := post
  setObjective := setObjective
  solve := solve
  unify := unify
  runtime b _ := b.elapsed.map .reported
  value := value
  solveBound b _ := b.process.replies.length + 1

end MiniZinc

end FiniteDomain
