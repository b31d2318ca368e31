import FiniteDomain.Word
import Mathlib.Algebra.Order.Ring.Int
import Mathlib.Tactic.Linarith

/-!
# Values inside and outside a word

Moving a value into the range of a word passes no value of the range, so it keeps every
bound on such values. A product over a box of factors lies between the products at the
corners of the box.
-/

namespace FiniteDomain

namespace Word

variable {w : Word} {u v : Int}

/-- Where a value ends up that is moved into the range. -/
theorem clamp_cases (w : Word) (v : Int) :
    v < w.min ∧ w.clamp v = w.min ∨ w.min ≤ v ∧ w.max < v ∧ w.clamp v = w.max ∨
      w.min ≤ v ∧ v ≤ w.max ∧ w.clamp v = v := by
  simp only [clamp]
  split
  · simp_all
  · split <;> simp_all

/-- Moving an upper bound into the range does not pass a value of the range. -/
theorem le_clamp_of_le (hv : v ≤ w.max) (h : v ≤ u) : v ≤ w.clamp u := by
  simp only [clamp]
  repeat' split
  all_goals omega

/-- Moving a lower bound into the range does not pass a value of the range. -/
theorem clamp_le_of_le (hv : w.min ≤ v) (h : u ≤ v) : w.clamp u ≤ v := by
  simp only [clamp]
  repeat' split
  all_goals omega

/-- The 64-bit range extends beyond the 32-bit one on both sides. -/
theorem fits_word64 (h : word32.Fits v) : word64.Fits v := by
  simp only [Fits, word32, word64] at h ⊢
  omega

/-- A value with 32 bits and its negation lie strictly inside the 64-bit range. -/
theorem inside_word64 (h : word32.Fits v) :
    word64.min < v ∧ v < word64.max ∧ word64.min < -v ∧ -v < word64.max := by
  simp only [Fits, word32, word64] at h ⊢
  omega

/-- Strictly inside the range, moving the other side into it changes no comparison. -/
theorem clamp_le_iff (hmin : w.min ≤ v) (hmax : v < w.max) : w.clamp u ≤ v ↔ u ≤ v := by
  simp only [clamp]
  repeat' split
  all_goals omega

theorem le_clamp_iff (hmin : w.min < v) (hmax : v ≤ w.max) : v ≤ w.clamp u ↔ v ≤ u := by
  simp only [clamp]
  repeat' split
  all_goals omega

end Word

/-- The magnitude of a value that lies within both magnitudes of the ends of its range. -/
theorem natAbs_le_max {lower upper v : Int} (hl : lower ≤ v) (hu : v ≤ upper) :
    v.natAbs ≤ lower.natAbs ∨ v.natAbs ≤ upper.natAbs := by
  omega

/-- Some corner of a box of factors has no larger product. -/
theorem exists_corner_le {aLower aUpper bLower bUpper a b : Int} (ha : aLower ≤ a ∧ a ≤ aUpper)
    (hb : bLower ≤ b ∧ b ≤ bUpper) :
    aLower * bLower ≤ a * b ∨ aLower * bUpper ≤ a * b ∨ aUpper * bLower ≤ a * b ∨
      aUpper * bUpper ≤ a * b := by
  rcases le_total 0 b with hsign | hsign
  · have hab : aLower * b ≤ a * b := mul_le_mul_of_nonneg_right ha.1 hsign
    rcases le_total 0 aLower with h | h
    · exact .inl ((mul_le_mul_of_nonneg_left hb.1 h).trans hab)
    · exact .inr (.inl ((mul_le_mul_of_nonpos_left hb.2 h).trans hab))
  · have hab : aUpper * b ≤ a * b := mul_le_mul_of_nonpos_right ha.2 hsign
    rcases le_total 0 aUpper with h | h
    · exact .inr (.inr (.inl ((mul_le_mul_of_nonneg_left hb.1 h).trans hab)))
    · exact .inr (.inr (.inr ((mul_le_mul_of_nonpos_left hb.2 h).trans hab)))

/-- Some corner of a box of factors has no smaller product. -/
theorem exists_le_corner {aLower aUpper bLower bUpper a b : Int} (ha : aLower ≤ a ∧ a ≤ aUpper)
    (hb : bLower ≤ b ∧ b ≤ bUpper) :
    a * b ≤ aLower * bLower ∨ a * b ≤ aLower * bUpper ∨ a * b ≤ aUpper * bLower ∨
      a * b ≤ aUpper * bUpper := by
  have ha' : -aUpper ≤ -a ∧ -a ≤ -aLower := ⟨neg_le_neg ha.2, neg_le_neg ha.1⟩
  have h := exists_corner_le ha' hb
  simp only [neg_mul, neg_le_neg_iff] at h
  tauto

end FiniteDomain
