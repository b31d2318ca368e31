/-!
# Decimal digits
-/

namespace FiniteDomain.Text

/-- The number that decimal digits denote. -/
def numberOf (digits : List Char) : Nat :=
  digits.foldl (fun n c => 10 * n + (c.toNat - '0'.toNat)) 0

/-- Decimal digits at the start, at least one, and the rest. -/
def takeDigits? (cs : List Char) : Option (List Char × List Char) :=
  match cs.takeWhile Char.isDigit with
  | [] => none
  | digits => some (digits, cs.dropWhile Char.isDigit)

/-- The number that the text denotes, if it consists of decimal digits. -/
def natural? (cs : List Char) : Option Nat :=
  match takeDigits? cs with
  | some (digits, []) => some (numberOf digits)
  | _ => none

end FiniteDomain.Text
