import FiniteDomain.Arithmetic
import FiniteDomain.Variable

/-!
# Numeric expressions

Terms over variables and constants. Indexing starts at 0, and division rounds toward
zero.
-/

namespace FiniteDomain

/-- The leaves of an expression. -/
inductive Atom where
  | int (x : IntVar)
  /-- A literal as the number 0 or 1. -/
  | literal (l : Literal)
  | constant (value : Int)
  /-- A truth value as the number 0 or 1. -/
  | bool (value : Bool)

/-- Operations on two expressions. -/
inductive BinaryOp where
  | sub
  | mul
  | div
  | mod
  | pow
  deriving DecidableEq, Repr

/-- Operations on one expression. -/
inductive UnaryOp where
  | abs
  | neg
  deriving DecidableEq, Repr

/-- A numeric expression. -/
inductive Expr where
  | atom (a : Atom)
  | sum (terms : List Expr)
  /-- The sum of the terms, each times its weight. -/
  | weightedSum (weights : List Int) (terms : List Expr)
  | binary (op : BinaryOp) (a b : Expr)
  | unary (op : UnaryOp) (a : Expr)
  /-- The item of the array at a position. -/
  | element (array : List Expr) (index : Expr)

namespace Expr

/-- The value of an integer variable. -/
def ofInt (x : IntVar) : Expr := .atom (.int x)

/-- A literal as the number 0 or 1. -/
def ofLiteral (l : Literal) : Expr := .atom (.literal l)

/-- A number. -/
def constant (value : Int) : Expr := .atom (.constant value)

/-- A weighted sum, which needs one weight for every term. -/
def weightedSum? (weights : List Int) (terms : List Expr) : Option Expr :=
  if weights.length = terms.length then some (.weightedSum weights terms) else none

/-- The atom that the expression is, if it has no operator. -/
def asAtom? : Expr → Option Atom
  | atom a => some a
  | _ => none

/-- The expression has no operator. -/
def isAtom (e : Expr) : Bool := e.asAtom?.isSome

/-- The expression is a literal or a truth value. -/
def isBool : Expr → Bool
  | atom (.literal _) => true
  | atom (.bool _) => true
  | _ => false

/-- The direct subexpressions. -/
def operands : Expr → List Expr
  | atom _ => []
  | sum terms => terms
  | weightedSum _ terms => terms
  | binary _ a b => [a, b]
  | unary _ a => [a]
  | element array index => array ++ [index]

mutual

/-- The expression has a value under every assignment, as far as its operators go:
division, remainder, power and element do not always have one. -/
def isTotal : Expr → Bool
  | atom _ => true
  | sum terms => areTotal terms
  | weightedSum _ terms => areTotal terms
  | binary .sub a b => a.isTotal && b.isTotal
  | binary .mul a b => a.isTotal && b.isTotal
  | binary _ _ _ => false
  | unary _ a => a.isTotal
  | element _ _ => false

/-- All expressions have values, as far as their operators go. -/
def areTotal : List Expr → Bool
  | [] => true
  | e :: es => e.isTotal && areTotal es

end

mutual

/-- The number of operators and leaves. -/
def size : Expr → Nat
  | atom _ => 1
  | sum terms => sizes terms + 1
  | weightedSum _ terms => sizes terms + 1
  | binary _ a b => a.size + b.size + 1
  | unary _ a => a.size + 1
  | element array index => sizes array + index.size + 1

/-- The sizes of all expressions together. -/
def sizes : List Expr → Nat
  | [] => 0
  | e :: es => e.size + sizes es

end

end Expr

/-- The variable of an atom. -/
def Atom.vars : Atom → List Variable
  | .int x => [.int x]
  | .literal l => [.bool l.var]
  | .constant _ => []
  | .bool _ => []

namespace Expr

mutual

/-- The variables from left to right, once for every occurrence. -/
def occurrences : Expr → List Variable
  | atom a => a.vars
  | sum terms => occurrencesIn terms
  | weightedSum _ terms => occurrencesIn terms
  | binary _ a b => a.occurrences ++ b.occurrences
  | unary _ a => a.occurrences
  | element array index => occurrencesIn array ++ index.occurrences

/-- The variables of all expressions, one expression after the other. -/
def occurrencesIn : List Expr → List Variable
  | [] => []
  | e :: es => e.occurrences ++ occurrencesIn es

end

/-- Appends the variables of the expression that are not in the list yet, in order of
first occurrence. -/
def collect (e : Expr) (xs : List Variable) : List Variable :=
  e.occurrences.foldl (fun xs x => x.addTo xs) xs

/-- The variables of the expression in order of first occurrence. -/
def vars (e : Expr) : List Variable := e.collect []

end Expr

end FiniteDomain
