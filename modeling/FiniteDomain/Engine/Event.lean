import FiniteDomain.Direction

/-!
# What the engine reports
-/

namespace FiniteDomain.Engine

/-- Why the engine refuses a variable or a constraint. -/
inductive Error where
  | emptyDomain (name : String)
  | mismatchedCoefficients (expected actual : Nat)
  deriving DecidableEq, Repr

/-- The refusal in words. -/
def Error.message : Error → String
  | .emptyDomain name => "the domain of variable '" ++ name ++ "' is empty"
  | .mismatchedCoefficients expected actual =>
    "expected " ++ toString expected ++ " coefficients for the linear constraint, got "
      ++ toString actual

/-- What happens inside the engine, in the order in which it happens. -/
inductive Event where
  | created (name : String) (lower upper : Int)
  | posted (propagator : String)
  | ignored (propagator : String)
  | infeasible (propagator : String)
  | inconsistent (propagator : String)
  | deciding (name : String) (value : Int)
  | improved (value : Int) (direction : Direction)
  deriving DecidableEq, Repr

/-- The event as a log message. -/
def Event.message : Event → String
  | .created name lower upper =>
    "created variable " ++ name ++ " with domain [" ++ toString lower ++ ", " ++ toString upper
      ++ "]"
  | .posted name => "posted " ++ name
  | .ignored name => "ignoring " ++ name ++ ", the model is already infeasible"
  | .infeasible name => name ++ " is infeasible at the root, the model has no solutions"
  | .inconsistent name => name ++ " detected an inconsistency"
  | .deciding name value => "deciding " ++ name ++ " = " ++ toString value
  | .improved value direction =>
    "found solution with objective value " ++ toString value ++ " (" ++ direction.text ++ ")"

end FiniteDomain.Engine
