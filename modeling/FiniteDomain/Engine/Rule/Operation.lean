import FiniteDomain.Arithmetic
import FiniteDomain.Engine.Store

/-!
# Binary operations and absolute values

Sums carry bounds in all three directions and products bound their result. Every
operation computes its result once both operands are fixed; an operation that is
undefined there is a conflict.
-/

namespace FiniteDomain.Engine

namespace Operation

/-- Bounds of `result = a + b`, from the bounds of the operands and back. A sum moved
into the 64-bit range only ever weakens a bound. -/
def boundSum (a b result : View) (aLower aUpper bLower bUpper : Int) : Narrowing Unit := do
  result.atLeast (word64.clamp (aLower + bLower))
  result.atMost (word64.clamp (aUpper + bUpper))
  let lower ← Narrowing.ask (·.lowerBound result)
  let upper ← Narrowing.ask (·.upperBound result)
  a.atLeast (word64.clamp (lower - bUpper))
  a.atMost (word64.clamp (upper - bLower))
  b.atLeast (word64.clamp (lower - aUpper))
  b.atMost (word64.clamp (upper - aLower))

/-- Bounds of a product: its extremes are at the corners. -/
def boundProduct (result : View) (aLower aUpper bLower bUpper : Int) : Narrowing Unit := do
  let p := word64.clamp (aLower * bLower)
  let q := word64.clamp (aLower * bUpper)
  let r := word64.clamp (aUpper * bLower)
  let s := word64.clamp (aUpper * bUpper)
  result.atLeast (min (min p q) (min r s))
  result.atMost (max (max p q) (max r s))

/-- `result` is the value of the operation at `a` and `b`. -/
def propagate (operator : Operator) (a b result : View) : Narrowing Unit := do
  let aLower ← Narrowing.ask (·.lowerBound a)
  let aUpper ← Narrowing.ask (·.upperBound a)
  let bLower ← Narrowing.ask (·.lowerBound b)
  let bUpper ← Narrowing.ask (·.upperBound b)
  match operator with
  | .sum => boundSum a b result aLower aUpper bLower bUpper
  | .times => boundProduct result aLower aUpper bLower bUpper
  | .div | .mod | .pow => pure ()
  match ← Narrowing.ask (·.value? a), ← Narrowing.ask (·.value? b) with
  | some x, some y =>
    match operator.apply x y with
    | some value => result.fix value
    | none => throw .conflict
  | _, _ => return ()

end Operation

namespace Absolute

/-- `absolute` is the magnitude of `signed`. Where the sign is known the bounds carry
over; else only the larger magnitude does. The bounds of `signed` are those before
the first narrowing. -/
def propagate (signed absolute : View) : Narrowing Unit := do
  let lower ← Narrowing.ask (·.lowerBound signed)
  let upper ← Narrowing.ask (·.upperBound signed)
  absolute.atLeast 0
  absolute.atMost (max (magnitude lower) (magnitude upper))
  if 0 < lower then
    absolute.atLeast lower
  else if upper < 0 then
    absolute.atLeast (word64.clamp (-upper))
  let least ← Narrowing.ask (·.lowerBound absolute)
  let most ← Narrowing.ask (·.upperBound absolute)
  signed.atLeast (word64.clamp (-most))
  signed.atMost most
  if upper ≤ 0 then
    signed.atMost (word64.clamp (-least))
  else if 0 ≤ lower then
    signed.atLeast least
  if let some value ← Narrowing.ask (·.value? signed) then
    absolute.fix (magnitude value)

end Absolute

end FiniteDomain.Engine
