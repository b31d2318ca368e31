import FiniteDomain.Constraint.Text

/-!
# Constraints in MiniZinc syntax

Binary operators are written between their operands, and an operand that is compound is
put into parentheses. Arrays start at 0, so an element lookup declares an array with
explicit indices, and the successors of a circuit, which MiniZinc numbers from 1, are
shifted by one if one of them may be 0.

Variables appear under the names that are given; the list of the variables that are
written, in order, says which names that takes.
-/

namespace FiniteDomain.MiniZinc

/-- The items with commas between them. -/
def joined (items : List String) : String := ",".intercalate items

/-- The items as an array literal. -/
def arrayOf (items : List String) : String := "[" ++ joined items ++ "]"

/-- The text, in parentheses if it is compound. -/
def parenthesised (compound : Bool) (text : String) : String :=
  if compound then "(" ++ text ++ ")" else text

/-- The names of variables. -/
abbrev Names := VarId → String

/-- A literal is the name of its variable, negated if need be. -/
def renderLiteral (names : Names) (l : Literal) : String :=
  if l.negated then "not " ++ names l.var.id else names l.var.id

/-- An atom in MiniZinc syntax. -/
def renderAtom (names : Names) : Atom → String
  | .int x => names x.id
  | .literal l => renderLiteral names l
  | .constant value => toString value
  | .bool value => toString value

/-- The infix operator of an operation. -/
def operatorSymbol : BinaryOp → String
  | .sub => "-"
  | .mul => "*"
  | .div => "div"
  | .mod => "mod"
  | .pow => "^"

/-- The expression needs parentheses as an operand. -/
def isCompound : Expr → Bool
  | .atom (.literal l) => l.negated
  | .atom _ => false
  | _ => true

/-- A lookup in an array that is declared on the spot. -/
def elementText (isBool : Bool) (array : List String) (index : String) : String :=
  let subtype := if isBool then "bool" else "int"
  "\n    let \x7b array[int] of var " ++ subtype ++ ": arr=array1d(0.."
    ++ toString ((array.length : Int) - 1) ++ "," ++ arrayOf array ++ ") \x7d in\n      arr["
    ++ index ++ "]"

mutual

/-- The expression in MiniZinc syntax. -/
def renderExpr (names : Names) : Expr → String
  | .atom a => renderAtom names a
  | .sum [a, b] => renderOperand names a ++ " + " ++ renderOperand names b
  | .sum terms => "sum(" ++ arrayOf (renderExprs names terms) ++ ")"
  | .weightedSum weights terms => "sum(" ++ arrayOf (renderProducts names weights terms) ++ ")"
  | .binary op a b =>
    renderOperand names a ++ " " ++ operatorSymbol op ++ " " ++ renderOperand names b
  | .unary .abs a => "abs(" ++ renderExpr names a ++ ")"
  | .unary .neg a => "-" ++ renderOperand names a
  | .element array index =>
    elementText (array.all Expr.isBool) (renderExprs names array) (renderExpr names index)

/-- An operand of an infix operator. -/
def renderOperand (names : Names) (e : Expr) : String :=
  parenthesised (isCompound e) (renderExpr names e)

/-- All expressions in MiniZinc syntax. -/
def renderExprs (names : Names) : List Expr → List String
  | [] => []
  | e :: es => renderExpr names e :: renderExprs names es

/-- The products of the terms with their weights, as far as there are weights. -/
def renderProducts (names : Names) (weights : List Int) : List Expr → List String
  | [] => []
  | e :: es =>
    match weights with
    | [] => []
    | w :: ws => (toString w ++ "*" ++ renderOperand names e) :: renderProducts names ws es

end

/-- A successor may be node 0, as far as its kind and its lower bound tell. -/
def startsAtZero : Expr → Bool
  | .atom (.int x) => x.domain.lower == 0
  | _ => false

/-- The successors, numbered from 1 if one of them may be 0. -/
def renderSuccessors (names : Names) (successors : List Expr) : List String :=
  if successors.any startsAtZero then
    successors.map fun s => renderOperand names s ++ "+1"
  else renderExprs names successors

/-- A constraint over many expressions; a table without rows has no solution. -/
def renderGlobal (names : Names) : Global → String
  | .allDifferent args => "alldifferent(" ++ arrayOf (renderExprs names args) ++ ")"
  | .allEqual args => "all_equal(" ++ arrayOf (renderExprs names args) ++ ")"
  | .circuit successors => "circuit(" ++ arrayOf (renderSuccessors names successors) ++ ")"
  | .subcircuit successors => "subcircuit(" ++ arrayOf (renderSuccessors names successors) ++ ")"
  | .table _ [] => "false"
  | .table columns rows =>
    "table(" ++ arrayOf (renderExprs names columns) ++ ", [|\n"
      ++ String.join (rows.map fun row => joined (row.map toString) ++ " |") ++ "\n|])"
  | .parity literals => "xorall(" ++ arrayOf (literals.map (renderLiteral names)) ++ ")"

/-- The infix operator of a connective with two arguments. -/
def connectiveSymbol : Connective → String
  | .and => "/\\"
  | .or => "\\/"
  | .xor => "xor"

/-- The function of a connective with any number of arguments. -/
def connectiveFunction : Connective → String
  | .and => "forall"
  | .or => "exists"
  | .xor => "xorall"

/-- The constraint needs parentheses as an operand. -/
def isCompoundConstraint : Constraint → Bool
  | .literal l => l.negated
  | .constant _ => false
  | _ => true

mutual

/-- The constraint in MiniZinc syntax. -/
def renderConstraint (names : Names) : Constraint → String
  | .literal l => renderLiteral names l
  | .constant value => toString value
  | .connective kind [a, b] =>
    renderConstraintOperand names a ++ " " ++ connectiveSymbol kind ++ " "
      ++ renderConstraintOperand names b
  | .connective kind args =>
    connectiveFunction kind ++ "(" ++ arrayOf (renderConstraints names args) ++ ")"
  | .implication a c =>
    renderConstraintOperand names a ++ " -> " ++ renderConstraintOperand names c
  | .comparison comparator lhs rhs =>
    renderOperand names lhs ++ " " ++ comparator.symbol ++ " " ++ renderOperand names rhs
  | .global g => renderGlobal names g

/-- An operand of an infix connective. -/
def renderConstraintOperand (names : Names) (c : Constraint) : String :=
  parenthesised (isCompoundConstraint c) (renderConstraint names c)

/-- All constraints in MiniZinc syntax. -/
def renderConstraints (names : Names) : List Constraint → List String
  | [] => []
  | c :: cs => renderConstraint names c :: renderConstraints names cs

end

/-! ## The variables that are written -/

mutual

/-- The variables in the text of the expression, in order. -/
def writtenIn : Expr → List Variable
  | .atom a => a.vars
  | .sum terms => writtenInAll terms
  | .weightedSum weights terms => writtenInProducts weights terms
  | .binary _ a b => writtenIn a ++ writtenIn b
  | .unary _ a => writtenIn a
  | .element array index => writtenInAll array ++ writtenIn index

/-- The variables in the texts of all expressions. -/
def writtenInAll : List Expr → List Variable
  | [] => []
  | e :: es => writtenIn e ++ writtenInAll es

/-- A term without a weight is not written. -/
def writtenInProducts (weights : List Int) : List Expr → List Variable
  | [] => []
  | e :: es =>
    match weights with
    | [] => []
    | _ :: ws => writtenIn e ++ writtenInProducts ws es

end

/-- A table without rows is not written at all. -/
def writtenInGlobal : Global → List Variable
  | .table _ [] => []
  | g => writtenInAll g.args

mutual

/-- The variables in the text of the constraint, in order. -/
def writtenInConstraint : Constraint → List Variable
  | .literal l => [.bool l.var]
  | .constant _ => []
  | .connective _ args => writtenInConstraints args
  | .implication a c => writtenInConstraint a ++ writtenInConstraint c
  | .comparison _ lhs rhs => writtenIn lhs ++ writtenIn rhs
  | .global g => writtenInGlobal g

/-- The variables in the texts of all constraints. -/
def writtenInConstraints : List Constraint → List Variable
  | [] => []
  | c :: cs => writtenInConstraint c ++ writtenInConstraints cs

end

end FiniteDomain.MiniZinc
