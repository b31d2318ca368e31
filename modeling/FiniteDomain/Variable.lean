import FiniteDomain.Domain

/-!
# Variables

A variable is a Boolean or a bounded integer. Its identity is its number: numbers are
handed out in order of creation and never twice. A variable that is given no name is
named after its number.
-/

namespace FiniteDomain

/-- The identity of a variable. -/
abbrev VarId := Nat

/-- A computation that creates variables; the state is the next free number. -/
abbrev Fresh := StateM VarId

/-- A Boolean variable. -/
structure BoolVar where
  id : VarId
  name : String

/-- An integer variable. -/
structure IntVar where
  id : VarId
  name : String
  domain : Domain

/-- A variable of either kind. -/
inductive Variable where
  | bool (x : BoolVar)
  | int (x : IntVar)

/-- A Boolean variable, or its negation. -/
structure Literal where
  var : BoolVar
  negated : Bool

/-- The next free number. -/
def freshId : Fresh VarId := modifyGet fun next => (next, next + 1)

/-- Creates a Boolean variable. -/
def BoolVar.create (name? : Option String := none) : Fresh BoolVar := do
  let id ← freshId
  return { id, name := name?.getD ("BV" ++ toString id) }

/-- Creates an integer variable. -/
def IntVar.create (domain : Domain) (name? : Option String := none) : Fresh IntVar := do
  let id ← freshId
  return { id, name := name?.getD ("IV" ++ toString id), domain }

namespace Variable

/-- The number of the variable. -/
def id : Variable → VarId
  | bool x => x.id
  | int x => x.id

/-- The name of the variable. -/
def name : Variable → String
  | bool x => x.name
  | int x => x.name

/-- The values that the variable may take; for a Boolean 0 and 1. -/
def domain : Variable → Domain
  | bool _ => .boolean
  | int x => x.domain

/-- The variable is a Boolean. -/
def isBoolean : Variable → Bool
  | bool _ => true
  | int _ => false

/-- The variable as a Boolean, if it is one. -/
def asBool? : Variable → Option BoolVar
  | bool x => some x
  | int _ => none

/-- The variable as an integer, if it is one. -/
def asInt? : Variable → Option IntVar
  | bool _ => none
  | int x => some x

/-- Appends a variable to a list, unless one of its identity is there. -/
def addTo (x : Variable) (xs : List Variable) : List Variable :=
  if xs.any (·.id == x.id) then xs else xs ++ [x]

end Variable

namespace Literal

/-- The literal that is true if the variable is. -/
def ofVar (x : BoolVar) : Literal := ⟨x, false⟩

/-- The opposite literal. -/
def negate (l : Literal) : Literal := { l with negated := !l.negated }

/-- The literal in log messages. -/
def text (l : Literal) : String := if l.negated then "not " ++ l.var.name else l.var.name

end Literal

end FiniteDomain
