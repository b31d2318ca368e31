import FiniteDomain.Engine.Trail
import FiniteDomain.Engine.ValueSet
import FiniteDomain.Engine.View

/-!
# The store

The current value sets of all variables, the trail to undo their changes, and the
variables whose sets have changed since they were last asked for.

A narrowing is a change of the store that may fail. What it did before it failed
stays done: undoing is left to the checkpoints.
-/

namespace FiniteDomain.Engine

/-- One change of a value set, with what is needed to undo it. -/
inductive Change where
  | lower (x : VarIndex) (old : Int)
  | upper (x : VarIndex) (old : Int)
  | removal (x : VarIndex) (value : Int)
  deriving DecidableEq, Repr

/-- The current value sets. -/
structure Store where
  sets : Array ValueSet := #[]
  trail : Trail Change := {}
  /-- The variables changed since `takeModified`, in order, once per change. -/
  modified : Array VarIndex := #[]
  deriving Repr, Inhabited

/-- Why a narrowing stops: a value set would become empty or a propagator finds its
constraint violated; or an intermediate sum does not fit into 128 bits. -/
inductive Failure where
  | conflict
  | overflow
  deriving DecidableEq, Repr

/-- A change of the store that may fail; what was done before the failure stays. -/
abbrev Narrowing := EStateM Failure Store

namespace Store

/-- The value set of a variable. -/
def set (s : Store) (x : VarIndex) : ValueSet := s.sets.getD x default

/-- Adds a variable. -/
def addVariable (s : Store) (d : ValueSet) : Store := { s with sets := s.sets.push d }

/-- The number of variables. -/
def numVariables (s : Store) : Nat := s.sets.size

/-- Replaces the value set of a variable, records how to undo that, and notes that
the variable changed. -/
def update (s : Store) (x : VarIndex) (d : ValueSet) (undo : Change) : Store where
  sets := s.sets.setIfInBounds x d
  trail := s.trail.record undo
  modified := s.modified.push x

/-- Takes back one change. -/
def undo (sets : Array ValueSet) : Change → Array ValueSet
  | .lower x old => sets.modify x fun d => { d with lower := old }
  | .upper x old => sets.modify x fun d => { d with upper := old }
  | .removal x value => sets.modify x fun d => { d with removed := d.removed.erase value }

/-- The number of open checkpoints. -/
def depth (s : Store) : Nat := s.trail.depth

/-- Opens a checkpoint, to which the store can be taken back. -/
def openCheckpoint (s : Store) : Store := { s with trail := s.trail.openCheckpoint }

/-- Takes back every change made above the given depth, and forgets which variables
changed. -/
def backtrack (s : Store) (depth : Nat) : Store where
  sets := (s.trail.above depth).foldl undo s.sets
  trail := s.trail.closeTo depth
  modified := #[]

/-- Values that can still be lost, summed over all variables, and one more. -/
def potential (s : Store) : Nat := s.sets.foldl (fun n d => n + d.size) 1

/-! ## Variables -/

/-- Raises the lower bound to the first value which is at least `v`. -/
def tightenLower (x : VarIndex) (v : Int) : Narrowing Unit := fun s =>
  let d := s.set x
  if v ≤ d.lower then .ok () s
  else if d.upper < v then .error .conflict s
  else match d.firstFrom v with
    | none => .error .conflict s
    | some bound => .ok () (s.update x { d with lower := bound } (.lower x d.lower))

/-- Lowers the upper bound to the last value which is at most `v`. -/
def tightenUpper (x : VarIndex) (v : Int) : Narrowing Unit := fun s =>
  let d := s.set x
  if d.upper ≤ v then .ok () s
  else if v < d.lower then .error .conflict s
  else match d.lastUntil v with
    | none => .error .conflict s
    | some bound => .ok () (s.update x { d with upper := bound } (.upper x d.upper))

/-- Removes a value: a bound moves on to the next value, any other value is noted
as removed. -/
def removeValue (x : VarIndex) (v : Int) : Narrowing Unit := fun s =>
  let d := s.set x
  if !d.contains v then .ok () s
  else if v = d.lower then tightenLower x (v + 1) s
  else if v = d.upper then tightenUpper x (v - 1) s
  else .ok () (s.update x { d with removed := v :: d.removed } (.removal x v))

/-! ## Views -/

/-- The smallest value of a view; negation turns the bounds of its variable around. -/
def lowerBound (s : Store) (v : View) : Int :=
  match v with
  | .constant _ => v.map 0
  | .affine x negated _ => v.map (if negated then (s.set x).upper else (s.set x).lower)

/-- The largest value of a view. -/
def upperBound (s : Store) (v : View) : Int :=
  match v with
  | .constant _ => v.map 0
  | .affine x negated _ => v.map (if negated then (s.set x).lower else (s.set x).upper)

/-- The view can take the value. -/
def contains (s : Store) (v : View) (value : Int) : Bool :=
  match v with
  | .constant c => c == value
  | .affine x _ _ => (s.set x).contains (v.unmap value)

/-- The view can take one value only. -/
def isFixed (s : Store) (v : View) : Bool :=
  match v with
  | .constant _ => true
  | .affine x _ _ => (s.set x).isFixed

/-- The value of a view whose variable is fixed. -/
def value? (s : Store) (v : View) : Option Int :=
  if s.isFixed v then some (s.lowerBound v) else none

/-- A view used as a Boolean is true if it cannot be zero. -/
def isTrue (s : Store) (v : View) : Bool := !s.contains v 0

/-- A view used as a Boolean is false if it is fixed to zero. -/
def isFalse (s : Store) (v : View) : Bool := s.value? v == some 0

end Store

namespace View

/-- The narrowing of a constant to other values. -/
private def fails : Narrowing Unit := throw .conflict

/-- Keeps the values of the view which are at least `bound`. -/
def atLeast (v : View) (bound : Int) : Narrowing Unit :=
  match v with
  | constant c => if bound ≤ c then pure () else fails
  | affine x negated _ =>
    if negated then Store.tightenUpper x (v.unmap bound) else Store.tightenLower x (v.unmap bound)

/-- Keeps the values of the view which are at most `bound`. -/
def atMost (v : View) (bound : Int) : Narrowing Unit :=
  match v with
  | constant c => if c ≤ bound then pure () else fails
  | affine x negated _ =>
    if negated then Store.tightenLower x (v.unmap bound) else Store.tightenUpper x (v.unmap bound)

/-- Removes a value from the view. -/
def remove (v : View) (value : Int) : Narrowing Unit :=
  match v with
  | constant c => if c = value then fails else pure ()
  | affine x _ _ => Store.removeValue x (v.unmap value)

/-- Keeps one value of the view. -/
def fix (v : View) (value : Int) : Narrowing Unit := do
  v.atLeast value
  v.atMost value

/-- Makes the view true as a Boolean. -/
def makeTrue (v : View) : Narrowing Unit := v.remove 0

/-- Makes the view false as a Boolean. -/
def makeFalse (v : View) : Narrowing Unit := v.fix 0

end View

namespace Narrowing

/-- Whether the narrowing would end in a conflict. The store is left as it was. -/
def wouldFail (action : Narrowing Unit) : Narrowing Bool := fun s =>
  let depth := s.depth
  let modified := s.modified
  let restore (s' : Store) : Store := { s'.backtrack depth with modified := modified }
  match action { s.openCheckpoint with modified := #[] } with
  | .ok _ s' => .ok false (restore s')
  | .error .conflict s' => .ok true (restore s')
  | .error .overflow s' => .error .overflow s'

/-- Runs a test on the current store. -/
def ask {α : Type} (f : Store → α) : Narrowing α := fun s => .ok (f s) s

end Narrowing

end FiniteDomain.Engine
