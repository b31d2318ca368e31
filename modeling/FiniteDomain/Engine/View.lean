import FiniteDomain.Word

/-!
# Views

Propagators do not refer to variables but to views: a constant, or a variable
seen through an optional negation and an offset. A view costs no variable. The
value of a view is kept inside the 64-bit range by moving a value outside to the
nearer end; the offsets that a model produces stay far from there.
-/

namespace FiniteDomain.Engine

/-- The number of a variable, in order of creation. -/
abbrev VarIndex := Nat

/-- A handle to an integer: `constant v` is `v`, and `affine x negated offset` is
`x + offset`, or `-x + offset` if negated. -/
inductive View where
  | constant (value : Int)
  | affine (x : VarIndex) (negated : Bool) (offset : Int)
  deriving DecidableEq, Repr

namespace View

/-- The variable itself. -/
def ofVar (x : VarIndex) : View := .affine x false 0

/-- The variable that the view reads, if it is not a constant. -/
def var? : View → Option VarIndex
  | constant _ => none
  | affine x _ _ => some x

/-- The value of a constant view. -/
def constant? : View → Option Int
  | constant v => some v
  | affine _ _ _ => none

/-- The view `-v`. -/
def negate : View → View
  | constant v => .constant (word64.clamp (-v))
  | affine x negated offset => .affine x (!negated) (word64.clamp (-offset))

/-- The view `v + k`. -/
def shift : View → Int → View
  | constant v, k => .constant (word64.clamp (v + k))
  | affine x negated offset, k => .affine x negated (word64.clamp (offset + k))

/-- The view `1 - v`, true exactly if the 0-1 view `v` is false. -/
def complement (v : View) : View := v.negate.shift 1

/-- The value of the view when its variable has the given value. -/
def map : View → Int → Int
  | constant v, _ => v
  | affine _ negated offset, inner =>
    word64.clamp (if negated then offset - inner else offset + inner)

/-- The value of the variable at which the view has the given value. -/
def unmap : View → Int → Int
  | constant v, outer => word64.clamp (outer - v)
  | affine _ negated offset, outer =>
    let shifted := word64.clamp (outer - offset)
    if negated then word64.clamp (-shifted) else shifted

/-- The view in log messages: `x3`, `-x3`, `x3+5`, or the number of a constant. -/
def text : View → String
  | constant v => toString v
  | affine x negated offset =>
    let name := (if negated then "-x" else "x") ++ toString x
    if offset = 0 then name
    else if 0 < offset then name ++ "+" ++ toString offset
    else name ++ toString offset

end View

/-- The views in brackets, in log messages. -/
def viewsText (views : List View) : String :=
  "[" ++ ", ".intercalate (views.map View.text) ++ "]"

end FiniteDomain.Engine
