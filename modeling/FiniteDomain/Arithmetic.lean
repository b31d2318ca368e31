import FiniteDomain.Word

/-!
# Partial arithmetic on 64-bit values

An operation has no value when its operands are outside its domain (a zero
divisor, a negative exponent) or when its result does not fit into 64 bits.
Division rounds toward zero and the remainder takes the sign of the dividend.
-/

namespace FiniteDomain

/-- The exponents that a power accepts. -/
def maxExponent : Int := 4294967295

/-- A power whose base has magnitude at most one: only the parity of the
exponent and whether it is zero matter. -/
def unitPower (base : Int) (exponent : Nat) : Int :=
  if exponent = 0 then 1 else if exponent % 2 = 1 then base else base * base

/-- The power if it fits into 64 bits. A base of magnitude two or more cannot fit
from the exponent 64 on. -/
def power? (base : Int) (exponent : Nat) : Option Int :=
  if base.natAbs ≤ 1 then some (unitPower base exponent)
  else if exponent < 64 then word64.fit? (Int.pow base exponent)
  else none

/-- The power, moved to the nearer end of the 64-bit range if it does not fit. -/
def clampedPower (base : Int) (exponent : Nat) : Int :=
  match power? base exponent with
  | some v => v
  | none => if base < 0 ∧ exponent % 2 = 1 then word64.min else word64.max

/-- The quotient rounded toward zero. -/
def quotient? (a b : Int) : Option Int :=
  if b = 0 then none else word64.fit? (a.tdiv b)

/-- The remainder of `quotient?`; it is undefined wherever the quotient is. -/
def remainder? (a b : Int) : Option Int :=
  (quotient? a b).map fun _ => a.tmod b

/-- The binary operations for which there is a propagator. -/
inductive Operator where
  | sum
  | times
  | div
  | mod
  | pow
  deriving DecidableEq, Repr

/-- The value of an operation on 64-bit values, if it has one. -/
def Operator.apply : Operator → Int → Int → Option Int
  | .sum, a, b => word64.fit? (a + b)
  | .times, a, b => word64.fit? (a * b)
  | .div, a, b => quotient? a b
  | .mod, a, b => remainder? a b
  | .pow, a, b => if 0 ≤ b ∧ b ≤ maxExponent then power? a b.toNat else none

/-- The name of the operation in log messages. -/
def Operator.text : Operator → String
  | .sum => "Sum"
  | .times => "Times"
  | .div => "Div"
  | .mod => "Mod"
  | .pow => "Pow"

end FiniteDomain
