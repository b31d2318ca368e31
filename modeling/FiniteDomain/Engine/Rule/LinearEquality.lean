import FiniteDomain.Engine.Store

/-!
# Linear equalities

`sum (coefficient * view) = rhs`. The sums of the smallest and of the largest terms
are accumulated in 128 bits, where they stick to the ends of the range; each term is
then bounded by what the others leave for it.
-/

namespace FiniteDomain.Engine

namespace Linear

/-- A coefficient and the view it multiplies. -/
abbrev Term := Int × View

/-- The smallest and the largest value of a term. -/
def termBounds (s : Store) (t : Term) : Int × Int :=
  let a := t.1 * s.lowerBound t.2
  let b := t.1 * s.upperBound t.2
  (min a b, max a b)

/-- Adds up the smallest and the largest values, moving each partial sum into the
128-bit range. -/
def sumBounds (bounds : List (Int × Int)) : Int × Int :=
  bounds.foldl (fun sums b => (word128.clamp (sums.1 + b.1), word128.clamp (sums.2 + b.2))) (0, 0)

/-- An intermediate result, which has to fit into 128 bits. -/
def exact (v : Int) : Narrowing Int :=
  if word128.Fits v then return v else throw .overflow

/-- The quotient rounded up. -/
def ceilDiv (numerator denominator : Int) : Int := -(Int.fdiv (-numerator) denominator)

/-- The quotient rounded down. -/
def floorDiv (numerator denominator : Int) : Int := Int.fdiv numerator denominator

/-- Bounds one term, given the sums over all terms and its own share in them. A bound
beyond 64 bits lies outside every value set, so moving it to the end of the range
keeps its effect. -/
def narrowTerm (rhs minSum maxSum : Int) (t : Term) (bounds : Int × Int) : Narrowing Unit := do
  let lower ← exact (rhs - (← exact (maxSum - bounds.2)))
  let upper ← exact (rhs - (← exact (minSum - bounds.1)))
  let (low, high) := if 0 < t.1 then (lower, upper) else (upper, lower)
  t.2.atLeast (word64.clamp (← exact (ceilDiv low t.1)))
  t.2.atMost (word64.clamp (← exact (floorDiv high t.1)))

/-- The sum of the terms is `rhs`. All bounds are read before the first narrowing. -/
def propagate (terms : List Term) (rhs : Int) : Narrowing Unit := do
  let bounds ← Narrowing.ask fun s => terms.map (termBounds s)
  let (minSum, maxSum) := sumBounds bounds
  if rhs < minSum ∨ maxSum < rhs then
    throw .conflict
  (terms.zip bounds).forM fun (t, b) => narrowTerm rhs minSum maxSum t b

/-- The sum cannot reach `rhs`. -/
def isViolated (terms : List Term) (rhs : Int) (s : Store) : Bool :=
  let (minSum, maxSum) := sumBounds (terms.map (termBounds s))
  decide (rhs < minSum) || decide (maxSum < rhs)

end Linear

end FiniteDomain.Engine
