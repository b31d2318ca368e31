import FiniteDomain.Engine.Store

/-!
# All-different

The value of a fixed view is removed from all other views.
-/

namespace FiniteDomain.Engine

namespace AllDifferent

/-- Visits the views from left to right; `before` holds those already visited. -/
def propagateFrom (before : List View) : List View → Narrowing Unit
  | [] => pure ()
  | v :: after => do
    if let some value ← Narrowing.ask (·.value? v) then
      (before ++ after).forM (·.remove value)
    propagateFrom (before ++ [v]) after

/-- No two views have the same value. -/
def propagate (views : List View) : Narrowing Unit := propagateFrom [] views

/-- Some value occurs twice. -/
def hasRepeat : List Int → Bool
  | [] => false
  | v :: vs => vs.contains v || hasRepeat vs

/-- Two views are fixed to the same value. -/
def isViolated (views : List View) (s : Store) : Bool := hasRepeat (views.filterMap s.value?)

end AllDifferent

end FiniteDomain.Engine
