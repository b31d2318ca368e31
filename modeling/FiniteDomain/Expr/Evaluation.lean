import FiniteDomain.Expr.Basic

/-!
# The value of an expression

Evaluation is checked: an expression has no value if a variable has none, if an
operator is applied outside its domain, or if an intermediate result does not fit
into 64 bits. Subexpressions are evaluated from left to right, except that a power
looks at its exponent first, and only the selected item of an array is evaluated.

A negated literal is `1 - x`; this is meant for values of `x` that are 0 or 1, and a
value so small that the difference does not fit into 64 bits ends the evaluation
altogether.
-/

namespace FiniteDomain

/-- Why there is no value: there is none, or the evaluation had to be given up. -/
inductive NoValue where
  | undefined
  | overflow
  deriving DecidableEq, Repr

/-- The values of variables. -/
abbrev Assignment := VarId → Option Int

/-- An optional value, where absence means undefined. -/
def orUndefined {α : Type} : Option α → Except NoValue α
  | some a => .ok a
  | none => .error .undefined

/-- A result that has to fit into 64 bits. -/
def checked (v : Int) : Except NoValue Int := orUndefined (word64.fit? v)

/-- The value of an operation on 64-bit values, if it has one. -/
def BinaryOp.apply : BinaryOp → Int → Int → Option Int
  | .sub, a, b => word64.fit? (a - b)
  | .mul, a, b => Operator.times.apply a b
  | .div, a, b => Operator.div.apply a b
  | .mod, a, b => Operator.mod.apply a b
  | .pow, a, b => Operator.pow.apply a b

/-- The value of an operation on a 64-bit value, if it has one. -/
def UnaryOp.apply : UnaryOp → Int → Option Int
  | .abs, a => word64.fit? a.natAbs
  | .neg, a => word64.fit? (-a)

/-- The value of a literal as a number. -/
def Literal.evaluate (σ : Assignment) (l : Literal) : Except NoValue Int := do
  let v ← orUndefined (σ l.var.id)
  if !l.negated then return v
  if word64.Fits (1 - v) then return 1 - v
  throw .overflow

/-- The value of an atom. -/
def Atom.evaluate (σ : Assignment) : Atom → Except NoValue Int
  | .int x => orUndefined (σ x.id)
  | .literal l => l.evaluate σ
  | .constant value => .ok value
  | .bool value => .ok value.toInt

namespace Expr

mutual

/-- The value under an assignment. -/
def evaluate (σ : Assignment) : Expr → Except NoValue Int
  | atom a => a.evaluate σ
  | sum terms => evaluateSum σ 0 terms
  | weightedSum weights terms => evaluateWeighted σ 0 weights terms
  | binary .pow base exponent => do
    let n ← exponent.evaluate σ
    if 0 ≤ n ∧ n ≤ maxExponent then
      let b ← base.evaluate σ
      orUndefined (power? b n.toNat)
    else throw .undefined
  | binary op a b => do
    let x ← a.evaluate σ
    let y ← b.evaluate σ
    orUndefined (op.apply x y)
  | unary op a => do
    let x ← a.evaluate σ
    orUndefined (op.apply x)
  | element array index => do
    let i ← index.evaluate σ
    if i < 0 then throw .undefined
    evaluateAt σ array i.toNat

/-- Adds the values of the terms to a total. -/
def evaluateSum (σ : Assignment) (total : Int) : List Expr → Except NoValue Int
  | [] => .ok total
  | e :: es => do
    let v ← e.evaluate σ
    evaluateSum σ (← checked (total + v)) es

/-- Adds the weighted values of the terms to a total, as far as there are weights. -/
def evaluateWeighted (σ : Assignment) (total : Int) (weights : List Int) :
    List Expr → Except NoValue Int
  | [] => .ok total
  | e :: es =>
    match weights with
    | [] => .ok total
    | w :: ws => do
      let v ← e.evaluate σ
      let product ← checked (w * v)
      evaluateWeighted σ (← checked (total + product)) ws es

/-- The value of the item at a position. -/
def evaluateAt (σ : Assignment) : List Expr → Nat → Except NoValue Int
  | [], _ => .error .undefined
  | e :: _, 0 => e.evaluate σ
  | _ :: es, i + 1 => evaluateAt σ es i

end

/-- The values of all expressions, if each has one. -/
def evaluateAll (σ : Assignment) (es : List Expr) : Except NoValue (List Int) :=
  es.mapM (evaluate σ)

end Expr

end FiniteDomain
