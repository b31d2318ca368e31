import FiniteDomain.Engine.Propagation

/-!
# Search

Depth-first branch and bound. A node decides an unfixed variable with the narrowest
bounds, the first such, to be its lower bound; when that subtree is exhausted the
decision is refuted at the level of the node, and the node goes on with what is left.
While an objective is set, a refutation also demands a better value than the best so
far. Without an objective the first solution ends the search.

Deciding and refuting each take values away, which bounds the depth of the recursion.
-/

namespace FiniteDomain.Engine

/-- The outcome of a search. -/
structure Statistics where
  /-- Solutions found; with an objective, each better than the one before. -/
  solutions : Nat := 0
  /-- Decisions made. -/
  nodes : Nat := 0
  /-- Dead ends met. -/
  failures : Nat := 0
  /-- Nothing is left to search: the last solution, if any, is optimal. -/
  complete : Bool := false
  deriving DecidableEq, Repr, Inhabited

/-- The statistics in one line, with a running time taken elsewhere. -/
def Statistics.text (s : Statistics) (milliseconds : Nat) : String :=
  "solutions=" ++ toString s.solutions ++ " nodes=" ++ toString s.nodes ++ " failures="
    ++ toString s.failures ++ " complete=" ++ toString s.complete ++ " runtime="
    ++ toString milliseconds ++ "ms"

/-- The unfixed variable with the fewest values between its bounds. -/
def Store.narrowestUnfixed (s : Store) : Option VarIndex :=
  (List.range s.numVariables).foldl
    (fun best x =>
      if (s.set x).isFixed then best
      else match best with
        | none => some x
        | some b => if (s.set x).width < (s.set b).width then some x else best)
    none

/-- Keeps the lower bound of every variable as the solution. -/
def recordSolution (e : Engine) : Engine :=
  { e with solution := some (e.store.sets.map (·.lower)) }

namespace Running

/-- Fixes a variable to a value, and propagates. -/
def decide (x : VarIndex) (value : Int) : Running Unit := do
  onStore ((View.ofVar x).fix value)
  propagate

/-- Narrows the objective to values better than the given one. -/
def improve (best : Int) : Running Unit := do
  match (← get).objective with
  | none => pure ()
  | some (.minimise, v) => onStore (v.atMost (word64.clamp (best - 1)))
  | some (.maximise, v) => onStore (v.atLeast (word64.clamp (best + 1)))

/-- Removes a value from a variable, demands a better objective, and propagates. -/
def refute (x : VarIndex) (value : Int) (best : Option Int) : Running Unit := do
  onStore ((View.ofVar x).remove value)
  if let some best := best then
    improve best
  propagate

end Running

/-- A search under way: the counts so far and the best objective value. -/
structure Search where
  engine : Engine
  statistics : Statistics := {}
  best : Option Int := none

/-- Why a subtree is left. -/
inductive Ending where
  /-- A solution was found, and any will do. -/
  | satisfied
  /-- Nothing is left in the subtree. -/
  | exhausted
  deriving DecidableEq, Repr

namespace Search

/-- A step of the search; only an overflow ends it early. -/
abbrev Step := EStateM Failure Search

/-- Runs an action of the engine. -/
def onEngine {α : Type} (action : Running α) : Step α := fun s =>
  let engine := s.engine
  let s := { s with engine := {} }
  match action engine with
  | .ok a e => .ok a { s with engine := e }
  | .error f e => .error f { s with engine := e }

/-- Changes the engine. -/
def modifyEngine (f : Engine → Engine) : Step Unit := onEngine (modify f)

/-- Changes the counts. -/
def count (f : Statistics → Statistics) : Step Unit :=
  modify fun s => { s with statistics := f s.statistics }

/-- A dead end. -/
def fail : Step Ending := do
  count fun c => { c with failures := c.failures + 1 }
  return .exhausted

/-- All variables are fixed: keeps the solution, and goes on only if it can be better. -/
def accept : Step Ending := do
  modifyEngine recordSolution
  count fun c => { c with solutions := c.solutions + 1 }
  let e := (← get).engine
  match e.objective with
  | none => return .satisfied
  | some (direction, v) =>
    let value := e.lowerBound v
    modifyEngine (note (.improved value direction))
    modify fun s => { s with best := some value }
    return .exhausted

/-- Opens a checkpoint and decides a variable; whether that is consistent. -/
def branch (x : VarIndex) (value : Int) : Step Bool := do
  let name := (← get).engine.name x
  modifyEngine (note (.deciding name value))
  count fun c => { c with nodes := c.nodes + 1 }
  modifyEngine fun e => { e with store := e.store.openCheckpoint }
  onEngine (Running.succeeds (Running.decide x value))

/-- Goes back to the given depth and refutes the decision; whether that is consistent. -/
def retract (depth : Nat) (x : VarIndex) (value : Int) : Step Bool := do
  modifyEngine fun e => { e with store := e.store.backtrack depth }
  let best := (← get).best
  onEngine (Running.succeeds (Running.refute x value best))

/-- Searches below the current state, which propagation has found consistent or not. -/
def explore : Nat → Bool → Step Ending
  | 0, _ => return .exhausted
  | _ + 1, false => fail
  | fuel + 1, true => do
    let store := (← get).engine.store
    match store.narrowestUnfixed with
    | none => accept
    | some x =>
      let value := (store.set x).lower
      let depth := store.depth
      let consistent ← branch x value
      match ← explore fuel consistent with
      | .satisfied => return .satisfied
      | .exhausted =>
        let consistent ← retract depth x value
        explore fuel consistent

end Search

namespace Running

/-- Searches from the root. Refutations happen at the level of their node, so the root
is protected by a checkpoint of its own. -/
def search : Running Statistics := fun e =>
  let root := e.store.depth
  let e := { e with store := e.store.openCheckpoint }
  let e := (List.range e.propagators.size).foldl schedule e
  let run : Search.Step Ending := do
    let consistent ← Search.onEngine (succeeds propagate)
    Search.explore e.store.potential consistent
  match run { engine := e } with
  | .ok ending s =>
    .ok { s.statistics with complete := ending = .exhausted }
      { s.engine with store := s.engine.store.backtrack root }
  | .error f s => .error f s.engine

/-- Searches for a solution, or for the best one if an objective is set. Afterwards the
variables are as before. -/
def solve : Running Statistics := do
  modify fun e => { e with solution := none }
  if (← get).infeasible then
    return { complete := true }
  search

end Running

end FiniteDomain.Engine
