import FiniteDomain.Direction
import FiniteDomain.MiniZinc.Rendering

/-!
# Programs

A program declares every variable it mentions, under a name of its own, states the
constraints in the order in which they were added, and ends in one solve item for the
last objective.

A variable is called by its name with the characters that identifiers do not take left
out or replaced; as long as that is the name of another variable, the number of the
variable is appended.
-/

namespace FiniteDomain.MiniZinc

/-- A variable and its name in the program. -/
structure Declaration where
  var : Variable
  name : String

/-- A program under construction. -/
structure Program where
  declarations : Array Declaration := #[]
  constraints : Array Constraint := #[]
  objective : Option (Expr × Direction) := none

/-- The name without what cannot be part of an identifier. -/
def sanitize (name : String) : String :=
  String.ofList ((name.toList.filter (· != ']')).map fun c =>
    if c == ',' || c == '.' || c == ' ' || c == '[' then '_' else c)

/-- The first name in the sequence `name`, `name ++ suffix`, ... that is not taken, among
the given number of them and the one after. -/
def firstFree (taken : List String) (suffix : String) : Nat → String → String
  | 0, name => name
  | count + 1, name =>
    if taken.contains name then firstFree taken suffix count (name ++ suffix) else name

/-- The declaration item: a Boolean, a range or a set of integers. -/
def Declaration.text (d : Declaration) : String :=
  match d.var with
  | .bool _ => "var bool: " ++ d.name ++ ";"
  | .int ⟨_, _, .interval lower upper _ _⟩ =>
    "var " ++ toString lower ++ ".." ++ toString upper ++ ": " ++ d.name ++ ";"
  | .int ⟨_, _, .values members _ _ _⟩ =>
    "var \x7b" ++ joined (members.map toString) ++ "\x7d: " ++ d.name ++ ";"

namespace Program

/-- The names that are taken. -/
def taken (p : Program) : List String := p.declarations.toList.map (·.name)

/-- The name of a declared variable. -/
def name? (p : Program) (id : VarId) : Option String :=
  (p.declarations.find? (·.var.id == id)).map (·.name)

/-- The names of the declared variables. -/
def names (p : Program) : Names := fun id => (p.name? id).getD ""

/-- A name for a variable which no declared variable has. -/
def freeName (p : Program) (x : Variable) : String :=
  firstFree p.taken ("_" ++ toString x.id) p.taken.length (sanitize x.name)

/-- Declares a variable, unless it is declared. -/
def declare (p : Program) (x : Variable) : Program :=
  if (p.name? x.id).isSome then p
  else { p with declarations := p.declarations.push ⟨x, p.freeName x⟩ }

/-- Declares the variables in order. -/
def declareAll (p : Program) (xs : List Variable) : Program := xs.foldl declare p

/-- Adds a constraint, and declares its variables. -/
def addConstraint (p : Program) (c : Constraint) : Program :=
  let p := p.declareAll (writtenInConstraint c)
  { p with constraints := p.constraints.push c }

/-- Replaces the objective, and declares its variables. -/
def setObjective (p : Program) (e : Expr) (direction : Direction) : Program :=
  { p.declareAll (writtenIn e) with objective := some (e, direction) }

/-- The solve item. -/
def solveItem (p : Program) : String :=
  match p.objective with
  | none => "solve satisfy;"
  | some (e, .minimise) => "solve minimize " ++ renderExpr p.names e ++ ";"
  | some (e, .maximise) => "solve maximize " ++ renderExpr p.names e ++ ";"

/-- What every program begins with. -/
def preamble : String := "% Generated by trellis\ninclude \"globals.mzn\";\n\n"

/-- The text of the program. -/
def text (p : Program) : String :=
  preamble
    ++ String.join (p.declarations.toList.map fun d => d.text ++ "\n")
    ++ String.join (p.constraints.toList.map fun c =>
        "constraint " ++ renderConstraint p.names c ++ ";\n")
    ++ p.solveItem ++ "\n"

end Program

end FiniteDomain.MiniZinc
