import FiniteDomain.Expr.Basic

/-!
# Expressions as text
-/

namespace FiniteDomain

/-- The items with commas between them. -/
def commaSeparated (items : List String) : String := ", ".intercalate items

/-- A variable is written by its name. -/
def Atom.text : Atom → String
  | .int x => x.name
  | .literal l => l.text
  | .constant value => toString value
  | .bool value => toString value

/-- The name of an operation in front of its operands. -/
def BinaryOp.name : BinaryOp → String
  | .sub => "sub"
  | .mul => "mul"
  | .div => "div"
  | .mod => "mod"
  | .pow => "pow"

/-- The name of an operation in front of its operand. -/
def UnaryOp.name : UnaryOp → String
  | .abs => "abs"
  | .neg => "neg"

namespace Expr

mutual

/-- An operator is written in front of its operands, an element lookup with brackets. -/
def text : Expr → String
  | atom a => a.text
  | sum terms => "sum(" ++ commaSeparated (texts terms) ++ ")"
  | weightedSum weights terms =>
    "wsum([" ++ commaSeparated (weights.map toString) ++ "], [" ++ commaSeparated (texts terms)
      ++ "])"
  | binary op a b => op.name ++ "(" ++ commaSeparated [a.text, b.text] ++ ")"
  | unary op a => op.name ++ "(" ++ a.text ++ ")"
  | element array index => "[" ++ commaSeparated (texts array) ++ "][" ++ index.text ++ "]"

/-- The texts of all expressions. -/
def texts : List Expr → List String
  | [] => []
  | e :: es => e.text :: texts es

end

end Expr

end FiniteDomain
