import FiniteDomain.Ascending

/-!
# Value sets

The values that a variable can still take: the values between two bounds, less
the removed ones, and of those only the initial ones if the variable did not
start as an interval. Both bounds are always values of the set, so a bound that
moves skips what has been removed.
-/

namespace FiniteDomain.Engine

/-- The values that a variable can still take. -/
structure ValueSet where
  lower : Int
  upper : Int
  /-- The initial values in ascending order, if they are not an interval. -/
  initial : Option (List Int)
  /-- Values strictly between the bounds which have been removed. -/
  removed : List Int
  deriving Repr, Inhabited

/-- The first of `count` consecutive values from `v` upward which is not removed. -/
def firstKept (removed : List Int) : Nat → Int → Option Int
  | 0, _ => none
  | count + 1, v =>
    if removed.contains v then firstKept removed count (v + 1) else some v

/-- The first of `count` consecutive values from `v` downward which is not removed. -/
def lastKept (removed : List Int) : Nat → Int → Option Int
  | 0, _ => none
  | count + 1, v =>
    if removed.contains v then lastKept removed count (v - 1) else some v

namespace ValueSet

/-- All values between two bounds. -/
def interval (lower upper : Int) : ValueSet := ⟨lower, upper, none, []⟩

/-- The given values; an interval if they are consecutive. There must be one. -/
def ofValues? (values : List Int) : Option ValueSet :=
  match ascending values with
  | [] => none
  | first :: rest =>
    let last := rest.getLastD first
    if last - first = rest.length then some (interval first last)
    else some ⟨first, last, some (first :: rest), []⟩

/-- Membership. -/
def contains (d : ValueSet) (v : Int) : Bool :=
  decide (d.lower ≤ v) && decide (v ≤ d.upper) && d.initial.all (·.contains v)
    && !d.removed.contains v

/-- Only one value is left. -/
def isFixed (d : ValueSet) : Bool := d.lower == d.upper

/-- The distance between the bounds. -/
def width (d : ValueSet) : Int := d.upper - d.lower

/-- The smallest value of the set which is at least `v`. -/
def firstFrom (d : ValueSet) (v : Int) : Option Int :=
  let start := max v d.lower
  match d.initial with
  | none => firstKept d.removed (d.upper + 1 - start).toNat start
  | some values =>
    values.find? fun w => decide (start ≤ w) && decide (w ≤ d.upper) && !d.removed.contains w

/-- The largest value of the set which is at most `v`. -/
def lastUntil (d : ValueSet) (v : Int) : Option Int :=
  let stop := min v d.upper
  match d.initial with
  | none => lastKept d.removed (stop + 1 - d.lower).toNat stop
  | some values =>
    values.reverse.find? fun w =>
      decide (d.lower ≤ w) && decide (w ≤ stop) && !d.removed.contains w

/-- More values than a variable of this set can lose. -/
def size (d : ValueSet) : Nat := (d.upper + 1 - d.lower).toNat

end ValueSet

end FiniteDomain.Engine
