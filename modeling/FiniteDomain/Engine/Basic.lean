import FiniteDomain.Engine.Event
import FiniteDomain.Engine.Propagator

/-!
# The engine

The store together with the posted propagators and what schedules them. Variables and
views are created here; a constraint, once posted, stays.
-/

namespace FiniteDomain

/-- What is waiting to run. -/
structure Engine.Queue where
  /-- The propagators waiting to run, each at most once, the next one first. -/
  agenda : List Nat := []
  /-- For every propagator whether it is marked as waiting. -/
  marked : Array Bool := #[]
  deriving Inhabited

open Engine in
/-- The state of the engine. -/
structure Engine extends Queue where
  store : Store := {}
  /-- The name of every variable. -/
  names : Array String := #[]
  propagators : Array Propagator := #[]
  /-- For every variable the propagators which read it, in order of posting. -/
  watchers : Array (List Nat) := #[]
  objective : Option (Direction × View) := none
  /-- The value of every variable in the last solution. -/
  solution : Option (Array Int) := none
  /-- The posted constraints are known to have no solution without any search. -/
  infeasible : Bool := false
  /-- What has happened, oldest first. -/
  journal : Array Event := #[]
  deriving Inhabited

namespace Engine

/-- An action of the engine. A conflict or an overflow ends it, but keeps the state. -/
abbrev Running := EStateM Failure Engine

/-- Notes an event. -/
def note (event : Event) (e : Engine) : Engine := { e with journal := e.journal.push event }

/-- The number of variables created so far. -/
def numVariables (e : Engine) : Nat := e.store.numVariables

/-- The name given to a variable when it was created. -/
def name (e : Engine) (x : VarIndex) : String := e.names.getD x ""

/-- The lower bound of a view, given the posted constraints. -/
def lowerBound (e : Engine) (v : View) : Int := e.store.lowerBound v

/-- The upper bound of a view, given the posted constraints. -/
def upperBound (e : Engine) (v : View) : Int := e.store.upperBound v

/-- The value of a view in the last solution. -/
def solutionValue (e : Engine) : View → Option Int
  | .constant v => some v
  | v@(.affine x _ _) => e.solution.bind fun values => values[x]?.map v.map

/-- Adds a variable with the given value set. -/
def addVariable (e : Engine) (d : ValueSet) (name : String) : View × Engine :=
  (.ofVar e.numVariables,
    { e with
      store := e.store.addVariable d
      names := e.names.push name
      watchers := e.watchers.push [] }.note (.created name d.lower d.upper))

/-- A variable that can take all values between two bounds. -/
def createInterval (e : Engine) (lower upper : Int) (name : String) :
    Except Error (View × Engine) :=
  if upper < lower then .error (.emptyDomain name)
  else .ok (e.addVariable (.interval lower upper) name)

/-- A variable that can take any of the given values. -/
def createValues (e : Engine) (values : List Int) (name : String) :
    Except Error (View × Engine) :=
  match ValueSet.ofValues? values with
  | none => .error (.emptyDomain name)
  | some d => .ok (e.addVariable d name)

/-- A variable that is 0 or 1. -/
def createBoolean (e : Engine) (name : String) : View × Engine :=
  e.addVariable (.interval 0 1) name

/-- Replaces the objective. -/
def setObjective (e : Engine) (direction : Direction) (v : View) : Engine :=
  { e with objective := some (direction, v) }

namespace Running

/-- Runs a narrowing on the store of the engine. -/
def onStore {α : Type} (action : Narrowing α) : Running α := fun e =>
  let store := e.store
  let e := { e with store := {} }
  match action store with
  | .ok a s => .ok a { e with store := s }
  | .error f s => .error f { e with store := s }

/-- Whether the action ends without a conflict. What it did stays in either case. -/
def succeeds (action : Running Unit) : Running Bool := fun e =>
  match action e with
  | .ok _ e => .ok true e
  | .error .conflict e => .ok false e
  | .error .overflow e => .error .overflow e

end Running

end Engine

end FiniteDomain
