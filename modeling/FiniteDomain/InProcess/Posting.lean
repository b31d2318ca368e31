import FiniteDomain.Constraint.Decomposition
import FiniteDomain.InProcess.Basic

/-!
# Posting constraints to the engine

The first rule that fits applies:
a literal or a truth value is a clause of its own; a connective of atoms, an implication,
a comparison of atoms, an equality of an atom with an operation on atoms, and all-different
over atoms have propagators; anything else is decomposed, and the pieces are posted.

An implication is never decomposed here: its antecedent has to be an atom and its
consequent reifiable.
-/

namespace FiniteDomain.InProcess

open Engine (View Running Rule)

/-- Posts a rule, under a condition if there is one. -/
def postRule (rule : Rule) (condition : Option View := none) : Action Unit :=
  onEngine (Running.post { rule, condition })

/-- The rule of a connective. -/
def connectiveRule : Connective → List View → Rule
  | .and, literals => .conjunction literals
  | .or, literals => .disjunction literals
  | .xor, literals => .parity literals

/-- The rule of a comparison; the greater side goes to the right. -/
def comparisonRule : Comparator → View → View → Rule
  | .equal, a, b => .equal a b
  | .notEqual, a, b => .notEqual a b
  | .lessOrEqual, a, b => .less a b true
  | .less, a, b => .less a b false
  | .greaterOrEqual, a, b => .less b a true
  | .greater, a, b => .less b a false

/-- Posts a connective of atoms. -/
def postConnective (kind : Connective) (args : List Constraint) (condition : Option View) :
    Action Unit := do
  let literals ← args.mapM literalOf
  Lowering.note (.connectivePosted kind literals condition)
  postRule (connectiveRule kind literals) condition

/-- Posts a comparison of atoms. -/
def postComparison (comparator : Comparator) (lhs rhs : Expr) (condition : Option View) :
    Action Unit := do
  let a ← viewOf lhs
  let b ← viewOf rhs
  Lowering.note (.comparisonPosted a comparator b condition)
  postRule (comparisonRule comparator a b) condition

/-- Posts an implication. The view of the antecedent exists before the consequent is
looked at. -/
def postImplication (antecedent consequent : Constraint) : Action Unit := do
  let some atom := antecedent.asAtom?
    | Lowering.refuse (.antecedentNotAtomic antecedent consequent)
  let condition ← viewOfAtom atom
  match consequent with
  | .literal _ | .constant _ =>
    let b ← literalOf consequent
    Lowering.note (.implicationPosted condition b none)
    postRule (.implies condition b)
  | .connective kind args =>
    if args.all (·.isAtom) then
      postConnective kind args (some condition)
    else
      Lowering.refuse (.consequentNotReifiable consequent)
  | .implication a c =>
    if a.isAtom && c.isAtom then
      let a ← literalOf a
      let c ← literalOf c
      Lowering.note (.implicationPosted a c (some condition))
      postRule (.implies a c) (some condition)
    else
      Lowering.refuse (.consequentNotReifiable consequent)
  | .comparison comparator lhs rhs =>
    if lhs.isAtom && rhs.isAtom then
      postComparison comparator lhs rhs (some condition)
    else
      Lowering.refuse (.consequentNotReifiable consequent)
  | .global _ => Lowering.refuse (.consequentNotReifiable consequent)

/-- Posts `sum (coefficients * terms) - result = 0`; the last coefficient is that of the
result. -/
def postLinear (terms : List Expr) (coefficients : List Int) (result : Expr) : Action Unit := do
  let views ← terms.mapM viewOf
  let result ← viewOf result
  let views := views ++ [result.negate]
  Lowering.note (.linearPosted views coefficients)
  match ← onEngine (Running.postLinear views coefficients 0) with
  | .ok () => return ()
  | .error error => Lowering.refuse (.engine error)

/-- Posts `result = a operator b`, or `result = a operator (-b)`. -/
def postOperation (operator : Operator) (a b : Expr) (negated : Bool) (result : Expr) :
    Action Unit := do
  let a ← viewOf a
  let b ← viewOf b
  let b := if negated then b.negate else b
  let result ← viewOf result
  Lowering.note (.operationPosted a b result operator)
  postRule (.operation operator a b result)

/-- Posts that an operation on atoms equals an atom. Answers `false` if the engine has no
propagator for it. -/
def postFunctional (e result : Expr) : Action Bool := do
  match e with
  | .binary .mul a b => postOperation .times a b false result
  | .binary .div a b => postOperation .div a b false result
  | .binary .mod a b => postOperation .mod a b false result
  | .binary .pow a b => postOperation .pow a b false result
  | .binary .sub a b => postOperation .sum a b true result
  | .sum [a, b] => postOperation .sum a b false result
  | .sum terms => postLinear terms (List.replicate (terms.length + 1) 1) result
  | .weightedSum weights terms => postLinear terms (weights ++ [1]) result
  | .unary .abs signed =>
    let signed ← viewOf signed
    let absolute ← viewOf result
    Lowering.note (.absolutePosted signed absolute)
    postRule (.absolute signed absolute)
  | .unary .neg operand =>
    let operand ← viewOf operand
    let result ← viewOf result
    Lowering.note (.equalPosted operand.negate result)
    postRule (.equal operand.negate result)
  | .atom _ => return false
  | .element _ _ => return false
  return true

/-- Posts a constraint for which there is a propagator. Answers `false` if it has to be
decomposed. -/
def postPrimitive (c : Constraint) : Action Bool := do
  match c with
  | .literal _ | .constant _ =>
    let v ← literalOf c
    Lowering.note (.unitPosted v c)
    postRule (.disjunction [v])
    return true
  | .connective kind args =>
    if args.all (·.isAtom) then
      postConnective kind args none
      return true
    return false
  | .implication a c =>
    postImplication a c
    return true
  | .comparison comparator lhs rhs =>
    if lhs.isAtom && rhs.isAtom then
      postComparison comparator lhs rhs none
      return true
    if comparator ≠ .equal then
      return false
    let (e, result) := if lhs.isAtom then (rhs, lhs) else (lhs, rhs)
    if result.isAtom && e.operands.all (·.isAtom) then
      return ← postFunctional e result
    return false
  | .global (.allDifferent args) =>
    if args.all (·.isAtom) then
      let views ← args.mapM viewOf
      Lowering.note (.allDifferentPosted views)
      postRule (.allDifferent views)
      return true
    return false
  | .global _ => return false

/-- Posts a constraint; decompositions may be nested up to the given depth. -/
def postNested : Nat → Constraint → Action Unit
  | 0, c => Lowering.refuse (.noLowering c)
  | depth + 1, c => do
    if ← postPrimitive c then
      return ()
    match ← Lowering.fresh c.decompose.run with
    | none => Lowering.refuse (.noLowering c)
    | some pieces =>
      Lowering.note (.decomposed c pieces.length)
      pieces.forM (postNested depth)

/-- Posts a constraint. A decomposition peels off one operator of an expression or one
connective, so the size of the constraint bounds the nesting; the globals take a few
more steps to get there. -/
def post (c : Constraint) : Action Unit := postNested (c.size + 4) c

end FiniteDomain.InProcess
