import FiniteDomain.Engine.Propagation

/-!
# Posting constraints

A constraint that contradicts the earlier ones does not fail when it is posted: the
engine is infeasible from then on, and ignores whatever is posted later.
-/

namespace FiniteDomain.Engine

/-- Adds a propagator at the end, unless it is there. -/
def addWatcher (watchers : List Nat) (p : Nat) : List Nat :=
  if watchers.contains p then watchers else watchers ++ [p]

/-- Adds a propagator to the watchers of every variable it reads. -/
def watch (watchers : Array (List Nat)) (p : Nat) (views : List View) : Array (List Nat) :=
  views.foldl
    (fun watchers v =>
      match v.var? with
      | none => watchers
      | some x => watchers.modify x (addWatcher · p))
    watchers

/-- Adds a propagator without running it; it is not marked. -/
def install (e : Engine) (p : Propagator) : Engine :=
  { e with
    propagators := e.propagators.push p
    marked := e.marked.push false
    watchers := watch e.watchers e.propagators.size p.views }

namespace Running

/-- Posts a propagator, and propagates. -/
def post (p : Propagator) : Running Unit := do
  if (← get).infeasible then
    modify (note (.ignored p.name))
  else
    modify fun e => ((e.install p).note (.posted p.name)).schedule e.propagators.size
    unless ← succeeds propagate do
      modify fun e => { e.note (.infeasible p.name) with infeasible := true }

/-- Posts a rule that holds always. -/
def postRule (rule : Rule) : Running Unit := post { rule := rule }

/-- Posts a rule that holds if the condition is true. -/
def postIf (rule : Rule) (condition : View) : Running Unit :=
  post { rule := rule, condition := some condition }

/-- Posts `sum (coefficients * terms) = constant`; there must be one coefficient for
every term. -/
def postLinear (terms : List View) (coefficients : List Int) (constant : Int) :
    Running (Except Error Unit) := do
  if terms.length ≠ coefficients.length then
    return .error (.mismatchedCoefficients terms.length coefficients.length)
  postRule (.ofTerms (coefficients.zip terms) constant)
  return .ok ()

end Running

end FiniteDomain.Engine
