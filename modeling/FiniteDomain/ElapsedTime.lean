/-!
# Elapsed times

A time in seconds is read as the nearest binary number of 53 bits and then rounded to
whole nanoseconds; both roundings take a tie to the even neighbour. A time of 2^64
seconds or more has no representation.
-/

namespace FiniteDomain

/-- A length of time. -/
structure Duration where
  seconds : Nat
  nanoseconds : Nat
  deriving DecidableEq, Repr

/-- The quotient rounded to the nearest integer, a tie to the even one. -/
def roundHalfEven (num den : Nat) : Nat :=
  let q := num / den
  let r := num % den
  if 2 * r < den then q else if den < 2 * r then q + 1 else q + q % 2

/-- `mantissa * 2 ^ up / 2 ^ down`. -/
structure Binary where
  mantissa : Nat
  up : Nat
  down : Nat
  deriving DecidableEq, Repr

namespace Binary

/-- The quotient `num / den` scaled by the given powers of two and rounded. -/
def rounded (num den up down : Nat) : Binary :=
  ⟨roundHalfEven (num <<< down) (den <<< up), up, down⟩

/-- The nearest number with a mantissa of 53 bits. The scale that the lengths of the two
numbers suggest may be too fine by one bit. -/
def nearest (num den : Nat) : Binary :=
  if num = 0 then ⟨0, 0, 0⟩
  else
    let length : Int := (num.log2 : Int) - den.log2 - 53
    let up := length.toNat
    let down := (-length).toNat
    if num <<< down < (den <<< up) <<< 53 then rounded num den up down
    else if 0 < down then rounded num den up (down - 1)
    else rounded num den (up + 1) down

/-- The number is at least the given one. -/
def atLeast (b : Binary) (n : Nat) : Bool := decide (n <<< b.down ≤ b.mantissa <<< b.up)

end Binary

namespace Duration

/-- The time of a decimal number of seconds, `digits / 10 ^ places`. -/
def ofDecimal? (digits places : Nat) : Option Duration :=
  let seconds := Binary.nearest digits (Nat.pow 10 places)
  if seconds.atLeast (1 <<< 64) then none
  else
    let nanoseconds :=
      roundHalfEven ((seconds.mantissa * 1000000000) <<< seconds.up) (1 <<< seconds.down)
    some ⟨nanoseconds / 1000000000, nanoseconds % 1000000000⟩

end Duration

end FiniteDomain
