/-!
# Words

Numbers are integers. A word only says which of them fit, and what becomes of a
result that does not: it is moved to the nearer end of the range, or it has no
value.
-/

namespace FiniteDomain

/-- A signed word, given by the ends of its range. -/
structure Word where
  min : Int
  max : Int
  deriving DecidableEq, Repr

/-- The word of domain values. -/
def word32 : Word := ⟨-2147483648, 2147483647⟩

/-- The word of constants, weights, and the values of views and expressions. -/
def word64 : Word := ⟨-9223372036854775808, 9223372036854775807⟩

/-- The word in which linear sums are accumulated. -/
def word128 : Word :=
  ⟨-170141183460469231731687303715884105728, 170141183460469231731687303715884105727⟩

namespace Word

/-- The value lies in the range of the word. -/
def Fits (w : Word) (v : Int) : Prop := w.min ≤ v ∧ v ≤ w.max

instance (w : Word) (v : Int) : Decidable (w.Fits v) :=
  inferInstanceAs (Decidable (_ ∧ _))

/-- The nearest value in the range of the word. -/
def clamp (w : Word) (v : Int) : Int :=
  if v < w.min then w.min else if w.max < v then w.max else v

/-- The value itself, if it fits. -/
def fit? (w : Word) (v : Int) : Option Int :=
  if w.Fits v then some v else none

/-- A value in the range stays where it is. -/
theorem clamp_of_fits {w : Word} {v : Int} (h : w.Fits v) : w.clamp v = v := by
  obtain ⟨hmin, hmax⟩ := h
  rw [clamp, if_neg (by omega), if_neg (by omega)]

/-- The nearest value in the range lies in the range. -/
theorem fits_clamp {w : Word} (h : w.min ≤ w.max) (v : Int) : w.Fits (w.clamp v) := by
  simp only [clamp, Fits]
  split
  · omega
  · split <;> omega

/-- Moving values into the range keeps their order. -/
theorem clamp_mono {w : Word} (h : w.min ≤ w.max) {a b : Int} (hab : a ≤ b) :
    w.clamp a ≤ w.clamp b := by
  simp only [clamp]
  repeat' split
  all_goals omega

/-- A value is kept exactly if it lies in the range. -/
theorem fit?_eq_some_iff {w : Word} {v r : Int} : w.fit? v = some r ↔ w.Fits v ∧ r = v := by
  simp only [fit?]
  split <;> simp_all [eq_comm]

end Word

/-- The magnitude of a value, moved into the 64-bit range. -/
def magnitude (v : Int) : Int := word64.clamp v.natAbs

end FiniteDomain
