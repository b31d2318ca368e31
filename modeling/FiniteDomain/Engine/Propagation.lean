import FiniteDomain.Engine.Basic

/-!
# Propagation

Propagators run one after the other, in the order in which they were scheduled, until
none is waiting. A change of a variable schedules the propagators that read it, unless
they are marked as waiting. The mark is taken away before a propagator runs, so that its
own changes can schedule it again. A conflict clears the agenda and all marks on it.

Every run that changes the store loses a value, and between two such runs each
propagator runs at most once; this bounds the number of runs.
-/

namespace FiniteDomain.Engine

namespace Queue

/-- Puts a propagator at the end and marks it, unless it is marked. -/
def enqueue (q : Queue) (p : Nat) : Queue :=
  if q.marked.getD p false then q
  else { agenda := q.agenda ++ [p], marked := q.marked.setIfInBounds p true }

/-- Goes on with the rest of the agenda; its first propagator is no longer marked. -/
def dequeue (q : Queue) (p : Nat) (rest : List Nat) : Queue :=
  { agenda := rest, marked := q.marked.setIfInBounds p false }

/-- Empties the agenda, and takes the marks of its propagators away. -/
def drain (q : Queue) : Queue :=
  { agenda := [], marked := q.agenda.foldl (fun marked p => marked.setIfInBounds p false) q.marked }

end Queue

/-- Schedules a propagator, unless it is marked as waiting. -/
def schedule (e : Engine) (p : Nat) : Engine := { e with toQueue := e.toQueue.enqueue p }

/-- Takes the first propagator off the agenda. -/
def next (e : Engine) (p : Nat) (rest : List Nat) : Engine :=
  { e with toQueue := e.toQueue.dequeue p rest }

/-- Schedules the propagators that read the changed variables. -/
def wake (e : Engine) : Engine :=
  let changed := e.store.modified
  { e with
    store := { e.store with modified := #[] }
    toQueue := changed.foldl (fun q x => (e.watchers.getD x []).foldl Queue.enqueue q) e.toQueue }

/-- Nothing is waiting, and no change is pending. -/
def settle (e : Engine) : Engine :=
  { e with store := { e.store with modified := #[] }, toQueue := e.toQueue.drain }

namespace Running

/-- Runs one propagator. -/
def runPropagator (p : Nat) : Running Unit := fun e =>
  match e.propagators[p]? with
  | none => .ok () e
  | some propagator =>
    match onStore propagator.propagate e with
    | .ok _ e => .ok () e
    | .error .conflict e => .error .conflict (e.settle.note (.inconsistent propagator.name))
    | .error .overflow e => .error .overflow e

/-- Runs waiting propagators, at most the given number of them. -/
def runWaiting : Nat → Running Unit
  | 0 => pure ()
  | count + 1 => do
    modify wake
    match (← get).agenda with
    | [] => return ()
    | p :: rest =>
      modify fun e => e.next p rest
      runPropagator p
      runWaiting count

/-- Runs the propagators until none of them changes a variable. -/
def propagate : Running Unit := do
  let e ← get
  runWaiting ((e.store.potential + 1) * (e.propagators.size + 1) + 1)

end Running

end FiniteDomain.Engine
