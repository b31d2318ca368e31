import FiniteDomain.Engine.Store

/-!
# Rules on two views

Equality intersects the bounds, and fixes one side once the other is fixed.
Disequality acts on fixed values only. An order carries one bound each way.
-/

namespace FiniteDomain.Engine

namespace Equal

/-- Both views have the same value. -/
def propagate (a b : View) : Narrowing Unit := do
  a.atLeast (← Narrowing.ask (·.lowerBound b))
  a.atMost (← Narrowing.ask (·.upperBound b))
  b.atLeast (← Narrowing.ask (·.lowerBound a))
  b.atMost (← Narrowing.ask (·.upperBound a))
  if let some value ← Narrowing.ask (·.value? a) then
    b.fix value
  if let some value ← Narrowing.ask (·.value? b) then
    a.fix value

end Equal

namespace NotEqual

/-- The views have different values. -/
def propagate (a b : View) : Narrowing Unit := do
  if let some value ← Narrowing.ask (·.value? a) then
    b.remove value
  if let some value ← Narrowing.ask (·.value? b) then
    a.remove value

/-- Both views are fixed to the same value. -/
def isViolated (a b : View) (s : Store) : Bool :=
  match s.value? a, s.value? b with
  | some v, some w => v == w
  | _, _ => false

end NotEqual

namespace Less

/-- How far the first view has to stay below the second. -/
def gap (orEqual : Bool) : Int := if orEqual then 0 else 1

/-- The first view is below the second, or not above it. -/
def propagate (a b : View) (orEqual : Bool) : Narrowing Unit := do
  let upper ← Narrowing.ask (·.upperBound b)
  a.atMost (word64.clamp (upper - gap orEqual))
  let lower ← Narrowing.ask (·.lowerBound a)
  b.atLeast (word64.clamp (lower + gap orEqual))

/-- Even the smallest value of the first view is too large for the second. -/
def isViolated (a b : View) (orEqual : Bool) (s : Store) : Bool :=
  decide (s.upperBound b < word64.clamp (s.lowerBound a + gap orEqual))

end Less

end FiniteDomain.Engine
