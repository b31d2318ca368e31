/-!
# Directions of optimisation
-/

namespace FiniteDomain

/-- Whether an objective is made small or large. -/
inductive Direction where
  | minimise
  | maximise
  deriving DecidableEq, Repr

/-- The direction in log messages. -/
def Direction.text : Direction → String
  | .minimise => "Minimise"
  | .maximise => "Maximise"

end FiniteDomain
