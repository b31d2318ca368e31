import FiniteDomain.Constraint.Basic
import FiniteDomain.Expr.Text

/-!
# Constraints as text
-/

namespace FiniteDomain

/-- The items in brackets. -/
def bracketed (items : List String) : String := "[" ++ commaSeparated items ++ "]"

/-- The name of a connective in front of its arguments. -/
def Connective.name : Connective → String
  | .and => "and"
  | .or => "or"
  | .xor => "xor"

/-- A constraint over many expressions is written like a call of a function. -/
def Global.text (g : Global) : String :=
  match g with
  | .table columns rows =>
    "table(" ++ bracketed (Expr.texts columns) ++ ", "
      ++ bracketed (rows.map fun row => bracketed (row.map toString)) ++ ")"
  | .parity literals => "xor(" ++ bracketed (literals.map Literal.text) ++ ")"
  | _ => g.name ++ "(" ++ bracketed (Expr.texts g.args) ++ ")"

namespace Constraint

mutual

/-- A comparison is written between its sides, an implication with both parts in
parentheses, and a connective in front of its arguments. -/
def text : Constraint → String
  | literal l => l.text
  | constant value => toString value
  | connective kind args => kind.name ++ "(" ++ commaSeparated (texts args) ++ ")"
  | implication a c => "(" ++ a.text ++ ") -> (" ++ c.text ++ ")"
  | comparison comparator lhs rhs =>
    lhs.text ++ " " ++ comparator.symbol ++ " " ++ rhs.text
  | global g => g.text

/-- The texts of all constraints. -/
def texts : List Constraint → List String
  | [] => []
  | c :: cs => c.text :: texts cs

end

end Constraint

end FiniteDomain
