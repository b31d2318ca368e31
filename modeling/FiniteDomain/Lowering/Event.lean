import FiniteDomain.Constraint.Text
import FiniteDomain.Engine.Event
import FiniteDomain.Engine.View
import FiniteDomain.MiniZinc.Status
import FiniteDomain.Status

/-!
# What lowering and sessions report
-/

namespace FiniteDomain

open Engine (View viewsText)

/-- What a session and its backend do, in the order in which they do it. -/
inductive Event where
  | engine (e : Engine.Event)
  | viewCreated (v : View) (name : String)
  | unitPosted (v : View) (c : Constraint)
  | connectivePosted (kind : Connective) (views : List View) (condition : Option View)
  | implicationPosted (a b : View) (condition : Option View)
  | comparisonPosted (a : View) (comparator : Comparator) (b : View) (condition : Option View)
  | allDifferentPosted (views : List View)
  | absolutePosted (signed absolute : View)
  | equalPosted (a b : View)
  | linearPosted (views : List View) (coefficients : List Int)
  | operationPosted (a b result : View) (operator : Operator)
  | decomposed (c : Constraint) (pieces : Nat)
  | declared (declaration : String)
  | constraintWritten (text : String)
  | solveWritten (item : String)
  | runFinished (status : MiniZinc.Status) (objective : Option Int)
  | treatedAsUnknown (status : MiniZinc.Status)
  | runKilled (milliseconds : Nat)
  | posting (c : Constraint) (backend : String)
  | objectiveSet (direction : Direction) (e : Expr)
  | solved (backend : String) (status : SolverStatus)
  | valueMissing (name : String)
  | enumerated (count : Nat)

/-- The name of a connective in the names of the engine's posts. -/
def Connective.label : Connective → String
  | .and => "And"
  | .or => "Or"
  | .xor => "Xor"

/-- An optional value in log messages. -/
def optionText {α : Type} (text : α → String) : Option α → String
  | none => "None"
  | some a => "Some(" ++ text a ++ ")"

/-- The event as a log message. -/
def Event.message : Event → String
  | engine e => e.message
  | viewCreated v name => "created " ++ v.text ++ " for " ++ name
  | unitPosted v c => "post_or(" ++ viewsText [v] ++ ") for " ++ c.text
  | connectivePosted kind views none => "post_" ++ kind.label ++ "(" ++ viewsText views ++ ")"
  | connectivePosted kind views (some r) =>
    "post_" ++ kind.label ++ "_if(" ++ viewsText views ++ ", " ++ r.text ++ ")"
  | implicationPosted a b none => "post_implies(" ++ a.text ++ ", " ++ b.text ++ ")"
  | implicationPosted a b (some r) =>
    "post_implies_if(" ++ viewsText [a, b] ++ ", " ++ r.text ++ ")"
  | comparisonPosted a comparator b condition =>
    "post " ++ a.text ++ " " ++ comparator.symbol ++ " " ++ b.text ++ " if "
      ++ optionText View.text condition
  | allDifferentPosted views => "post_alldifferent(" ++ viewsText views ++ ")"
  | absolutePosted signed absolute => "post_abs(" ++ signed.text ++ ", " ++ absolute.text ++ ")"
  | equalPosted a b => "post_equals(" ++ a.text ++ ", " ++ b.text ++ ")"
  | linearPosted views coefficients =>
    "post_linear_equality(" ++ viewsText views ++ ", " ++ bracketed (coefficients.map toString)
      ++ ", 0)"
  | operationPosted a b result operator =>
    "post_arithmetic(" ++ a.text ++ ", " ++ b.text ++ ", " ++ result.text ++ ", "
      ++ operator.text ++ ")"
  | decomposed c pieces =>
    "decomposed " ++ c.text ++ " into " ++ toString pieces ++ " constraints"
  | declared declaration => "declared " ++ declaration
  | constraintWritten text => "constraint " ++ text ++ ";"
  | solveWritten item => item
  | runFinished status objective =>
    "minizinc finished with " ++ status.text ++ ", objective " ++ optionText toString objective
  | treatedAsUnknown status =>
    "minizinc reported " ++ status.text ++ ", treating it as unknown"
  | runKilled milliseconds =>
    "minizinc did not finish within " ++ toString milliseconds ++ "ms, killing it"
  | posting c backend => "posting " ++ c.text ++ " to the " ++ backend ++ " backend"
  | objectiveSet direction e => "objective is now " ++ direction.text ++ " " ++ e.text
  | solved backend status => backend ++ " backend finished with status " ++ status.text
  | valueMissing name => "the solution has no value for " ++ name
  | enumerated count => "enumerated " ++ toString count ++ " solutions"

end FiniteDomain
