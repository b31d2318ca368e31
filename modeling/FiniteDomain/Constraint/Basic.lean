import FiniteDomain.Expr.Basic

/-!
# Constraints

Truth-valued terms over variables: literals, connectives, comparisons of expressions,
and constraints over many expressions at once.
-/

namespace FiniteDomain

/-- How the truth values of the arguments are combined. -/
inductive Connective where
  | and
  | or
  /-- True if an odd number of the arguments is true. -/
  | xor
  deriving DecidableEq, Repr

/-- The relations between two values. -/
inductive Comparator where
  | equal
  | notEqual
  | lessOrEqual
  | less
  | greaterOrEqual
  | greater
  deriving DecidableEq, Repr

/-- The relation as it is written between its sides. -/
def Comparator.symbol : Comparator → String
  | .equal => "=="
  | .notEqual => "!="
  | .lessOrEqual => "<="
  | .less => "<"
  | .greaterOrEqual => ">="
  | .greater => ">"

/-- Whether the relation holds between two values. -/
def Comparator.compare : Comparator → Int → Int → Bool
  | .equal, a, b => decide (a = b)
  | .notEqual, a, b => decide (a ≠ b)
  | .lessOrEqual, a, b => decide (a ≤ b)
  | .less, a, b => decide (a < b)
  | .greaterOrEqual, a, b => decide (b ≤ a)
  | .greater, a, b => decide (b < a)

/-- Constraints over many expressions. -/
inductive Global where
  | allDifferent (args : List Expr)
  | allEqual (args : List Expr)
  /-- The successors, numbered from 0, form one cycle through all nodes. -/
  | circuit (successors : List Expr)
  /-- The nodes that are not their own successor form one cycle. -/
  | subcircuit (successors : List Expr)
  /-- The columns take the values of one of the rows. -/
  | table (columns : List Expr) (rows : List (List Int))
  /-- An odd number of the literals is true. -/
  | parity (literals : List Literal)

/-- The name under which the constraint is written. -/
def Global.name : Global → String
  | .allDifferent _ => "alldifferent"
  | .allEqual _ => "allequal"
  | .circuit _ => "circuit"
  | .subcircuit _ => "subcircuit"
  | .table _ _ => "table"
  | .parity _ => "xor"

/-- A constraint. -/
inductive Constraint where
  | literal (l : Literal)
  | constant (value : Bool)
  | connective (kind : Connective) (args : List Constraint)
  | implication (antecedent consequent : Constraint)
  | comparison (comparator : Comparator) (lhs rhs : Expr)
  | global (g : Global)

namespace Constraint

/-- The constraint that a Boolean is true. -/
def ofVar (x : BoolVar) : Constraint := .literal (.ofVar x)

/-- At least one of the arguments is true. -/
def or (args : List Constraint) : Constraint := .connective .or args

/-- Both sides have the same value. -/
def eq (lhs rhs : Expr) : Constraint := .comparison .equal lhs rhs

/-- No two arguments have the same value. -/
def allDifferent (args : List Expr) : Constraint := .global (.allDifferent args)

/-- The atom that the constraint is, if it is a literal or a truth value. -/
def asAtom? : Constraint → Option Atom
  | literal l => some (.literal l)
  | constant value => some (.bool value)
  | _ => none

/-- The constraint is a literal or a truth value. -/
def isAtom (c : Constraint) : Bool := c.asAtom?.isSome

/-- The constraint can be enforced under a condition as it is. -/
def isReifiable : Constraint → Bool
  | literal _ => true
  | constant _ => true
  | connective _ args => args.all isAtom
  | implication a c => a.isAtom && c.isAtom
  | comparison _ lhs rhs => lhs.isAtom && rhs.isAtom
  | global _ => false

end Constraint

/-- The expressions of a constraint over many of them. -/
def Global.args : Global → List Expr
  | .allDifferent args => args
  | .allEqual args => args
  | .circuit successors => successors
  | .subcircuit successors => successors
  | .table columns _ => columns
  | .parity literals => literals.map .ofLiteral

namespace Constraint

mutual

/-- The variables from left to right, once for every occurrence. -/
def occurrences : Constraint → List Variable
  | literal l => [.bool l.var]
  | constant _ => []
  | connective _ args => occurrencesIn args
  | implication a c => a.occurrences ++ c.occurrences
  | comparison _ lhs rhs => lhs.occurrences ++ rhs.occurrences
  | global g => g.args.flatMap Expr.occurrences

/-- The variables of all constraints, one constraint after the other. -/
def occurrencesIn : List Constraint → List Variable
  | [] => []
  | c :: cs => c.occurrences ++ occurrencesIn cs

end

/-- Appends the variables of the constraint that are not in the list yet, in order of
first occurrence. -/
def collect (c : Constraint) (xs : List Variable) : List Variable :=
  c.occurrences.foldl (fun xs x => x.addTo xs) xs

/-- The variables of the constraint in order of first occurrence. -/
def vars (c : Constraint) : List Variable := c.collect []

mutual

/-- The number of connectives, comparisons, operators and leaves. -/
def size : Constraint → Nat
  | literal _ => 1
  | constant _ => 1
  | connective _ args => sizes args + 1
  | implication a c => a.size + c.size + 1
  | comparison _ lhs rhs => lhs.size + rhs.size + 1
  | global g => Expr.sizes g.args + 1

/-- The sizes of all constraints together. -/
def sizes : List Constraint → Nat
  | [] => 0
  | c :: cs => c.size + sizes cs

end

end Constraint

end FiniteDomain
