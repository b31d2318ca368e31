import FiniteDomain.Constraint.Basic
import FiniteDomain.Expr.Bounds

/-!
# Decomposition

A constraint is rewritten into simpler ones over the same and some auxiliary variables.
An expression that is not an atom is named by an auxiliary over its bounds; a
constraint under a condition is moved behind a selector, a fresh Boolean.

Auxiliaries are created from left to right. A decomposition that turns out not to exist
has used up the numbers of those it created before.
-/

namespace FiniteDomain

/-- A decomposition, which may not exist. -/
abbrev Pieces := OptionT Fresh (List Constraint)

/-- A fresh variable over the bounds of the expression, as far as they fit into 32 bits,
and the constraint that the two are equal. -/
def Expr.auxiliary (e : Expr) : Fresh (IntVar × Constraint) := do
  let x ← IntVar.create (.clamped e.bounds.lower e.bounds.upper e.ordered_bounds)
  return (x, .eq e (.ofInt x))

namespace Expr

/-- The expression itself if it is an atom, else an auxiliary and its definition. -/
def atomize (e : Expr) : Fresh (Expr × List Constraint) :=
  if e.isAtom then return (e, [])
  else do
    let (x, definition) ← e.auxiliary
    return (.ofInt x, [definition])

/-- Atoms for all expressions, and the definitions of the auxiliaries among them. -/
def atomizeAll : List Expr → Fresh (List Expr × List Constraint)
  | [] => return ([], [])
  | e :: es => do
    let (a, definition) ← e.atomize
    let (as, definitions) ← atomizeAll es
    return (a :: as, definition ++ definitions)

/-- The same expression over atoms, and the definitions of the auxiliaries. -/
def atomizeOperands : Expr → Fresh (Expr × List Constraint)
  | atom a => return (.atom a, [])
  | sum terms => do
    let (terms, definitions) ← atomizeAll terms
    return (.sum terms, definitions)
  | weightedSum weights terms => do
    let (terms, definitions) ← atomizeAll terms
    return (.weightedSum weights terms, definitions)
  | binary op a b => do
    let (a, definitionsA) ← a.atomize
    let (b, definitionsB) ← b.atomize
    return (.binary op a b, definitionsA ++ definitionsB)
  | unary op a => do
    let (a, definitions) ← a.atomize
    return (.unary op a, definitions)
  | element array index => do
    let (array, definitionsA) ← atomizeAll array
    let (index, definitionsI) ← index.atomize
    return (.element array index, definitionsA ++ definitionsI)

/-- An auxiliary equal to the expression should not constrain the model: the expression is
an atom, or its operators always have values and its bounds fit into 32 bits. -/
def isDefinableAnywhere (e : Expr) : Bool :=
  e.isAtom ||
    (e.isTotal && decide (word32.Fits e.bounds.lower) && decide (word32.Fits e.bounds.upper))

end Expr

/-- For every item a selector which implies that the index is at the item and that the
item is the result; returns the selectors too. -/
def selectItems (index result : Expr) :
    Nat → List Expr → Fresh (List Constraint × List Constraint)
  | _, [] => return ([], [])
  | position, item :: items => do
    let selector ← BoolVar.create
    let (constraints, selectors) ← selectItems index result (position + 1) items
    return (
      .implication (.ofVar selector) (.eq index (.constant position))
        :: .implication (.ofVar selector) (.eq item result) :: constraints,
      .ofVar selector :: selectors)

/-- `array[index] = result`: some selector is true. -/
def decomposeElement (array : List Expr) (index result : Expr) : Fresh (List Constraint) := do
  if array.isEmpty then
    return [.constant false]
  let (index, definitionsI) ← index.atomize
  let (items, definitionsA) ← Expr.atomizeAll array
  let (constraints, selectors) ← selectItems index result 0 items
  return definitionsI ++ definitionsA ++ constraints ++ [.or selectors]

/-- For every row a selector which implies the value of every column; returns the
selectors too. -/
def selectRows (columns : List Expr) :
    List (List Int) → Fresh (List Constraint × List Constraint)
  | [] => return ([], [])
  | row :: rows => do
    let selector ← BoolVar.create
    let (constraints, selectors) ← selectRows columns rows
    let implied := (columns.zip row).map fun (column, value) =>
      Constraint.implication (.ofVar selector) (.eq column (.constant value))
    return (implied ++ constraints, .ofVar selector :: selectors)

/-- One of the rows that have a value for every column is selected. -/
def decomposeTable (columns : List Expr) (rows : List (List Int)) : Fresh (List Constraint) := do
  let (columns, definitions) ← Expr.atomizeAll columns
  let (constraints, selectors) ← selectRows columns (rows.filter (·.length == columns.length))
  let choice := if selectors.isEmpty then .constant false else .or selectors
  return definitions ++ constraints ++ [choice]

/-- The given number of variables that can be any node of a graph of `n` nodes. -/
def nodeVars (n : Nat) : Nat → Fresh (List IntVar)
  | 0 => return []
  | count + 1 => do
    let x ← IntVar.create (.clamped 0 (max 0 (n - 1)) (by omega))
    return x :: (← nodeVars n count)

/-- Consecutive variables are linked by the successor function. -/
def followSuccessors (successors : List Expr) : List IntVar → List Constraint
  | x :: y :: rest =>
    .eq (.ofInt y) (.element successors (.ofInt x)) :: followSuccessors successors (y :: rest)
  | _ => []

/-- The successors are all different nodes, and following them from node 0 visits all
different nodes, node 0 last. -/
def decomposeCircuit (successors : List Expr) : Fresh (List Constraint) := do
  let n := successors.length
  match successors with
  | [] => return []
  | first :: _ =>
    let order ← nodeVars n n
    let ranges := successors.flatMap fun s =>
      [.comparison .greaterOrEqual s (.constant 0), .comparison .less s (.constant n)]
    let start := order.head?.toList.map fun x => Constraint.eq (.ofInt x) first
    let stop := order.getLast?.toList.map fun x => Constraint.eq (.ofInt x) (.constant 0)
    return Constraint.allDifferent successors :: ranges
      ++ [.allDifferent (order.map .ofInt)] ++ start ++ followSuccessors successors order ++ stop

/-- An odd number of the 0-1 terms is 1: their sum is one more than twice some number. -/
def decomposeParity (terms : List Expr) : Fresh (List Constraint) := do
  if terms.isEmpty then
    return [.constant false]
  let half ← IntVar.create (.clamped 0 (terms.length / 2 : Nat) (by omega))
  let weights := List.replicate terms.length 1 ++ [-2]
  return [.eq (.weightedSum weights (terms ++ [.ofInt half])) (.constant 1)]

/-- A structured side of a comparison is named. An equality names one side only if both are
structured, so that an operation on atoms can be equated with an atom. -/
def decomposeComparison (comparator : Comparator) (lhs rhs : Expr) : Pieces := do
  if lhs.isAtom && rhs.isAtom then
    failure
  if comparator ≠ .equal then
    let (lhs, definitionsL) ← lhs.atomize
    let (rhs, definitionsR) ← rhs.atomize
    return definitionsL ++ definitionsR ++ [.comparison comparator lhs rhs]
  let (e, other) := if lhs.isAtom then (rhs, lhs) else (lhs, rhs)
  if !other.isAtom then
    let (x, definition) ← other.auxiliary
    return [definition, .eq e (.ofInt x)]
  if let .element array index := e then
    return ← decomposeElement array index other
  if e.operands.all (·.isAtom) then
    failure
  let (e, definitions) ← e.atomizeOperands
  return definitions ++ [.eq e other]

/-- Equality of every expression with the next one. -/
def chainEqual : List Expr → List Constraint
  | a :: b :: rest => .eq a b :: chainEqual (b :: rest)
  | _ => []

/-- The decomposition of a constraint over many expressions. -/
def Global.decompose : Global → Pieces
  | .allDifferent args => do
    if args.all (·.isAtom) then
      failure
    let (args, definitions) ← Expr.atomizeAll args
    return definitions ++ [.allDifferent args]
  | .allEqual args => return chainEqual args
  | .circuit successors => decomposeCircuit successors
  | .subcircuit _ => failure
  | .table columns rows => decomposeTable columns rows
  | .parity literals => decomposeParity (literals.map .ofLiteral)

namespace Constraint

/-- The opposite of an atom. -/
def negate? : Constraint → Option Constraint
  | literal l => some (.literal l.negate)
  | constant value => some (.constant !value)
  | _ => none

mutual

/-- `antecedent → consequent` for an antecedent that is an atom, as implications whose
consequents are reifiable. There is none if the consequent is already reifiable. -/
def decomposeImplication (antecedent : Constraint) : Constraint → Pieces
  | connective .and args =>
    if !antecedent.isAtom || args.all isAtom then failure
    else reifyAll antecedent args
  | connective .or args =>
    if !antecedent.isAtom || args.all isAtom then failure
    else do
      let (constraints, disjuncts) ← reifyDisjuncts args
      return constraints ++ [.implication antecedent (.or disjuncts)]
  | implication a c =>
    if !antecedent.isAtom || (a.isAtom && c.isAtom) then failure
    else do
      let both ← BoolVar.create
      let notOuter ← OptionT.mk (pure antecedent.negate?)
      let notInner ← OptionT.mk (pure a.negate?)
      let constraints ←
        if c.isReifiable then pure [.implication (.ofVar both) c]
        else decomposeImplication (.ofVar both) c
      return .or [notOuter, notInner, .ofVar both] :: constraints
  | comparison comparator lhs rhs => do
    if !antecedent.isAtom || (lhs.isAtom && rhs.isAtom) then
      failure
    if !lhs.isDefinableAnywhere || !rhs.isDefinableAnywhere then
      failure
    let (lhs, definitionsL) ← lhs.atomize
    let (rhs, definitionsR) ← rhs.atomize
    return definitionsL ++ definitionsR
      ++ [.implication antecedent (.comparison comparator lhs rhs)]
  | _ => failure

/-- The antecedent implies every argument. -/
def reifyAll (antecedent : Constraint) : List Constraint → Pieces
  | [] => return []
  | c :: cs => do
    let constraints ←
      if c.isReifiable then pure [.implication antecedent c]
      else decomposeImplication antecedent c
    return constraints ++ (← reifyAll antecedent cs)

/-- Atoms in place of the arguments: an argument that is none gets a selector which
implies it. -/
def reifyDisjuncts : List Constraint → OptionT Fresh (List Constraint × List Constraint)
  | [] => return ([], [])
  | c :: cs => do
    if c.isAtom then
      let (constraints, disjuncts) ← reifyDisjuncts cs
      return (constraints, c :: disjuncts)
    let selector ← BoolVar.create
    let implied ←
      if c.isReifiable then pure [.implication (.ofVar selector) c]
      else decomposeImplication (.ofVar selector) c
    let (constraints, disjuncts) ← reifyDisjuncts cs
    return (implied ++ constraints, .ofVar selector :: disjuncts)

end

/-- Simpler constraints which together have a solution exactly if this one does, over its
own variables. There are none if the constraint is simple already, or if it is not
known how to simplify it. -/
def decompose : Constraint → Pieces
  | literal _ => failure
  | constant _ => failure
  | connective .and args => if args.all isAtom then failure else return args
  | connective .or args =>
    if args.all isAtom then failure
    else do
      let (constraints, disjuncts) ← reifyDisjuncts args
      return constraints ++ [.or disjuncts]
  | connective .xor args => do
    let atoms ← OptionT.mk (pure (args.mapM asAtom?))
    decomposeParity (atoms.map .atom)
  | implication a c => decomposeImplication a c
  | comparison comparator lhs rhs => decomposeComparison comparator lhs rhs
  | global g => g.decompose

end Constraint

end FiniteDomain
