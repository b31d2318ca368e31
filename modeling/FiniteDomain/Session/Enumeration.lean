import FiniteDomain.Session.Basic

/-!
# Enumerating solutions

The solutions of a satisfaction problem are found one at a time. After each of them the
next solve is preceded by constraints which exclude it: some tracked variable takes
another value. For a Boolean that is the opposite literal, for an integer a fresh Boolean
which implies that the integer differs.
-/

namespace FiniteDomain

/-- The outcome of one step. -/
inductive Iterated where
  /-- A solution, as the values of variables. -/
  | solution (values : List (VarId × Int))
  /-- There are no more solutions. -/
  | finished
  /-- The backend stopped without a verdict. -/
  | unknown
  /-- There is no solution at all. -/
  | unsatisfiable

/-- An enumeration under way. -/
structure Iteration (σ : Type) where
  session : Session σ
  options : SolveOptions
  /-- What excludes the last solution, to be posted at the next step. -/
  exclusion : List Constraint := []
  hasSolution : Bool := false

namespace Iteration

variable {σ : Type}

/-- An action of an enumeration. -/
abbrev Action (σ : Type) := EStateM Stop (Iteration σ)

/-- Runs an action of the session. -/
def onSession {α : Type} (action : Session.Action σ α) : Action σ α := fun it =>
  match action it.session with
  | .ok a session => .ok a { it with session }
  | .error e session => .error e { it with session }

/-- Constraints which together exclude the values of the given variables, and literals one
of which has to be true. -/
def excludeValues (s : Session σ) :
    List Variable → Fresh (List Constraint × List Constraint)
  | [] => return ([], [])
  | x :: xs =>
    match s.value x.id, x with
    | none, _ => excludeValues s xs
    | some v, .bool b => do
      let (constraints, literals) ← excludeValues s xs
      return (constraints, .literal ⟨b, v != 0⟩ :: literals)
    | some v, .int i => do
      let differs ← BoolVar.create
      let (constraints, literals) ← excludeValues s xs
      return (
        .implication (.ofVar differs) (.comparison .notEqual (.ofInt i) (.constant v))
          :: constraints,
        .ofVar differs :: literals)

/-- Constraints that exclude the last solution. -/
def exclusionOf (s : Session σ) : Fresh (List Constraint) := do
  let (constraints, literals) ← excludeValues s s.tracked
  return constraints ++ [.or literals]

variable [Backend σ]

/-- Finds a solution that differs from all earlier ones in a tracked variable. -/
def next : Action σ Iterated := do
  let exclusion := (← get).exclusion
  modify fun it => { it with exclusion := [] }
  exclusion.forM fun c => onSession (Session.postUntracked c)
  if ← onSession (Session.solve (← get).options) then
    let session := (← get).session
    let exclusion ← onSession (Session.onBackend (Lowering.fresh (exclusionOf session)))
    modify fun it => { it with exclusion, hasSolution := true }
    return .solution session.values
  let it ← get
  match it.session.status with
  | .unsatisfiable => return if it.hasSolution then .finished else .unsatisfiable
  | _ => return .unknown

/-- Finds solutions until there are no more, at most the given number, and adds them to
those already found. An error ends the enumeration. -/
def collect : Nat → List (List (VarId × Int)) →
    Action σ (List (List (VarId × Int)) × Option LoweringError)
  | 0, found => return (found, none)
  | count + 1, found => fun it =>
    match next it with
    | .ok (.solution values) it => collect count (found ++ [values]) it
    | .ok _ it => .ok (found, none) it
    | .error (.error e) it => .ok (found, some e) it
    | .error .overflow it => .error .overflow it

end Iteration

namespace Session

variable {σ : Type}

/-- Begins an enumeration; there must not be an objective. -/
def iteration? (s : Session σ) (options : SolveOptions) : Except LoweringError (Iteration σ) :=
  match s.objective with
  | some _ => .error .enumeratedOptimisation
  | none => .ok { session := s, options }

/-- Finds all solutions, or as many as the limit allows: those found, and the error that
ended the enumeration early, if there was one. -/
def enumerate [Backend σ] (limit : Option Nat) (options : SolveOptions) :
    Action σ (List (List (VarId × Int)) × Option LoweringError) := fun s =>
  match s.iteration? options with
  | .error e => .ok ([], some e) s
  | .ok it =>
    let bound := Backend.solveBound s.lowering.backend s.tracked
    match Iteration.collect (limit.getD bound) [] it with
    | .ok (found, none) it => (do note (.enumerated found.length); return (found, none)) it.session
    | .ok (found, some e) it => .ok (found, some e) it.session
    | .error e it => .error e it.session

end Session

end FiniteDomain
