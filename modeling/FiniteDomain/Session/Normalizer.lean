import FiniteDomain.Constraint.Decomposition

/-!
# Normalizers

A normalizer brings constraints into the canonical form that backends take.
-/

namespace FiniteDomain

/-- The passes that bring constraints into canonical form. -/
structure Normalizer where
  /-- The canonical constraints that a constraint amounts to. -/
  flatten : Constraint → Fresh (List Constraint)
  /-- A variable that equals the expression, and the constraints that define it. -/
  materialize : Expr → Fresh (IntVar × List Constraint)
  /-- Brings implications into forms that can be reified. -/
  rewriteReification : List Constraint → Fresh (List Constraint)

/-- Takes constraints that are canonical already as they are. -/
def Normalizer.canonical : Normalizer where
  flatten c := return [c]
  materialize e := do
    let (x, definition) ← e.auxiliary
    return (x, [definition])
  rewriteReification cs := return cs

end FiniteDomain
