import FiniteDomain.Ascending
import FiniteDomain.Word

/-!
# Domains

The values that a variable of a model may take: all 32-bit values between two bounds,
or the members of a set. A domain is never empty.
-/

namespace FiniteDomain

/-- A non-empty set of 32-bit values. -/
inductive Domain where
  | interval (lower upper : Int) (ordered : lower ≤ upper)
      (fits : word32.Fits lower ∧ word32.Fits upper)
  | values (members : List Int) (nonempty : members ≠ [])
      (ascending : members.Pairwise (· < ·)) (fits : ∀ v ∈ members, word32.Fits v)

namespace Domain

/-- The domain of a Boolean. -/
def boolean : Domain := .interval 0 1 (by decide) (by decide)

/-- All values between two bounds, unless there is none. -/
def interval? (lower upper : Int) : Option Domain :=
  if h : lower ≤ upper ∧ word32.Fits lower ∧ word32.Fits upper then
    some (.interval lower upper h.1 h.2)
  else none

/-- The set of the given values, unless there is none. -/
def ofValues? (values : List Int) : Option Domain :=
  if h : ascending values ≠ [] ∧ ∀ v ∈ ascending values, word32.Fits v then
    some (.values (ascending values) h.1 (pairwise_ascending values) h.2)
  else none

/-- The interval between two values, which are moved into the 32-bit range. -/
def clamped (lower upper : Int) (h : lower ≤ upper) : Domain :=
  .interval (word32.clamp lower) (word32.clamp upper) (Word.clamp_mono (by decide) h)
    ⟨Word.fits_clamp (by decide) lower, Word.fits_clamp (by decide) upper⟩

/-- The smallest value. -/
def lower : Domain → Int
  | interval lower _ _ _ => lower
  | values members nonempty _ _ => members.head nonempty

/-- The largest value. -/
def upper : Domain → Int
  | interval _ upper _ _ => upper
  | values members nonempty _ _ => members.getLast nonempty

/-- Membership. -/
def contains : Domain → Int → Bool
  | interval lower upper _ _, v => decide (lower ≤ v) && decide (v ≤ upper)
  | values members _ _ _, v => members.contains v

/-- The smallest value is not above the largest. -/
theorem lower_le_upper (d : Domain) : d.lower ≤ d.upper := by
  cases d with
  | interval lower upper ordered fits => exact ordered
  | values members nonempty ascending fits =>
    cases members with
    | nil => contradiction
    | cons v vs =>
      simp only [lower, upper, List.head_cons]
      rcases List.mem_cons.1 (List.getLast_mem nonempty) with h | h
      · omega
      · have := (List.pairwise_cons.1 ascending).1 _ h
        omega

/-- An upper bound on the number of values. -/
def size (d : Domain) : Nat := (d.upper + 1 - d.lower).toNat

end Domain

end FiniteDomain
