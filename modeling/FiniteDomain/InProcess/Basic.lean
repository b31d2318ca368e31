import FiniteDomain.Engine.Posting
import FiniteDomain.Engine.Search
import FiniteDomain.Lowering.Backend

/-!
# The engine as a backend

Variables become views of the engine. A negated literal is not stored: its view is
computed from that of its variable.
-/

namespace FiniteDomain

open Engine (View Running)

/-- The engine, and the view of every variable met so far. -/
structure InProcess where
  engine : Engine := {}
  views : List (VarId × View) := []

namespace InProcess

/-- An action of the backend. -/
abbrev Action := Lowering InProcess

/-- Runs an action of the engine, which never ends in a conflict, and takes over its
journal. -/
def onEngine {α : Type} (action : Running α) : Action α := fun s =>
  let engine := { s.backend.engine with journal := #[] }
  let s := { s with backend := { s.backend with engine := {} } }
  let resume (e : Engine) : Lowering.State InProcess :=
    { s with
      backend := { s.backend with engine := { e with journal := #[] } }
      journal := s.journal ++ e.journal.map .engine }
  match action engine with
  | .ok a e => .ok a (resume e)
  | .error _ e => .error .overflow (resume e)

/-- Creates a variable of the engine. -/
def createView (create : Engine → Except Engine.Error (View × Engine)) : Action View := do
  let creation : Running (Except Engine.Error View) := do
    match create (← get) with
    | .ok (v, e) =>
      set e
      return .ok v
    | .error error => return .error error
  match ← onEngine creation with
  | .ok v => return v
  | .error error => Lowering.refuse (.engine error)

/-- The view of a variable, created when the variable is met for the first time. -/
def bind (x : Variable) : Action View := do
  if let some v := (← Lowering.getBackend).views.lookup x.id then
    return v
  let v ← createView fun e =>
    match x with
    | .bool x => .ok (e.createBoolean x.name)
    | .int ⟨_, name, .interval lower upper _ _⟩ => e.createInterval lower upper name
    | .int ⟨_, name, .values members _ _ _⟩ => e.createValues members name
  Lowering.note (.viewCreated v x.name)
  Lowering.modifyBackend fun b => { b with views := (x.id, v) :: b.views }
  return v

/-- The number of variables that have a view. -/
def numBound (b : InProcess) : Nat := b.views.length

/-- The view of an atom. -/
def viewOfAtom : Atom → Action View
  | .int x => bind (.int x)
  | .literal l => do
    let v ← bind (.bool l.var)
    return if l.negated then v.complement else v
  | .constant value => return .constant value
  | .bool value => return .constant value.toInt

/-- The view of an expression, which has to be an atom. -/
def viewOf (e : Expr) : Action View :=
  match e.asAtom? with
  | some a => viewOfAtom a
  | none => Lowering.refuse (.expressionNotAtomic e)

/-- The view of a constraint, which has to be an atom. -/
def literalOf (c : Constraint) : Action View :=
  match c.asAtom? with
  | some a => viewOfAtom a
  | none => Lowering.refuse (.constraintNotAtomic c)

end InProcess

end FiniteDomain
