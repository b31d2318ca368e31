import FiniteDomain.Constraint.Basic
import FiniteDomain.Expr.Evaluation

/-!
# The truth of a constraint

A constraint has a truth value where all of its parts have values; only the consequent
of an implication whose antecedent is false is not looked at.
-/

namespace FiniteDomain

/-- Follows the successors for the given number of steps: every node on the way is in
the cycle, and the start is met at the last step and not before. -/
def closesCycle (successor : Nat → Nat) (inCycle : Nat → Bool) (start : Nat) :
    Nat → Nat → Bool
  | 0, _ => true
  | remaining + 1, node =>
    let next := successor node
    inCycle next && ((next == start) == (remaining == 0))
      && closesCycle successor inCycle start remaining next

/-- All successors are nodes, and the nodes in the cycle are visited one after the other,
starting from the first of them and ending there. -/
def isSingleCycle (successors : List Int) (inCycle : Nat → Bool) : Bool :=
  let n := successors.length
  if successors.any fun s => decide (s < 0) || decide (n ≤ s) then false
  else
    let members := (List.range n).filter inCycle
    match members with
    | [] => true
    | start :: _ =>
      closesCycle (fun node => (successors.getD node 0).toNat) inCycle start members.length start

/-- All values are the same. -/
def allSame : List Int → Bool
  | [] => true
  | v :: vs => vs.all (· == v)

/-- An odd number of the truth values is true. -/
def isOdd (values : List Bool) : Bool := values.countP id % 2 == 1

/-- The truth value of a connective, given those of its arguments. -/
def Connective.apply : Connective → List Bool → Bool
  | .and, values => values.all id
  | .or, values => values.any id
  | .xor, values => isOdd values

/-- Whether a constraint over many expressions holds; all of them must have values. -/
def Global.evaluate (σ : Assignment) : Global → Except NoValue Bool
  | .allDifferent args => do return decide (← Expr.evaluateAll σ args).Nodup
  | .allEqual args => do return allSame (← Expr.evaluateAll σ args)
  | .circuit successors => do
    return isSingleCycle (← Expr.evaluateAll σ successors) fun _ => true
  | .subcircuit successors => do
    let values ← Expr.evaluateAll σ successors
    return isSingleCycle values fun node => values.getD node 0 != node
  | .table columns rows => do
    let values ← Expr.evaluateAll σ columns
    return rows.any (· == values)
  | .parity literals => do
    return isOdd ((← literals.mapM (Literal.evaluate σ)).map (· != 0))

namespace Constraint

mutual

/-- Whether the constraint holds under an assignment. -/
def evaluate (σ : Assignment) : Constraint → Except NoValue Bool
  | literal l => do return (← l.evaluate σ) != 0
  | constant value => .ok value
  | connective kind args => do return kind.apply (← evaluateAll σ args)
  | implication a c => do
    if ← a.evaluate σ then c.evaluate σ else return true
  | comparison comparator lhs rhs => do
    let x ← lhs.evaluate σ
    let y ← rhs.evaluate σ
    return comparator.compare x y
  | global g => g.evaluate σ

/-- The truth values of all constraints, if each has one. -/
def evaluateAll (σ : Assignment) : List Constraint → Except NoValue (List Bool)
  | [] => .ok []
  | c :: cs => do
    let value ← c.evaluate σ
    return value :: (← evaluateAll σ cs)

end

end Constraint

end FiniteDomain
