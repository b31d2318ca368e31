/-!
# Ascending lists

Finite sets of integers as strictly ascending lists.
-/

namespace FiniteDomain

/-- Adds a value to an ascending list, unless it is there. -/
def insertAscending (v : Int) : List Int → List Int
  | [] => [v]
  | w :: ws => if v < w then v :: w :: ws else if v = w then w :: ws else w :: insertAscending v ws

/-- The values in ascending order, each of them once. -/
def ascending (values : List Int) : List Int := values.foldr insertAscending []

/-- Insertion adds the value and nothing else. -/
theorem mem_insertAscending {v w : Int} {ws : List Int} :
    w ∈ insertAscending v ws ↔ w = v ∨ w ∈ ws := by
  induction ws with
  | nil => simp [insertAscending]
  | cons u us ih =>
    simp only [insertAscending]
    split
    · simp
    · split
      · simp_all
      · simp [ih, or_left_comm]

/-- Insertion keeps an ascending list ascending. -/
theorem pairwise_insertAscending {v : Int} {ws : List Int} (h : ws.Pairwise (· < ·)) :
    (insertAscending v ws).Pairwise (· < ·) := by
  induction ws with
  | nil => simp [insertAscending]
  | cons u us ih =>
    obtain ⟨hu, hus⟩ := List.pairwise_cons.1 h
    simp only [insertAscending]
    split
    · refine List.pairwise_cons.2 ⟨fun x hx => ?_, h⟩
      rcases List.mem_cons.1 hx with rfl | hx
      · assumption
      · have := hu x hx
        omega
    · split
      · exact h
      · refine List.pairwise_cons.2 ⟨fun x hx => ?_, ih hus⟩
        rcases mem_insertAscending.1 hx with rfl | hx
        · omega
        · exact hu x hx

/-- Sorting keeps the members. -/
@[simp] theorem mem_ascending {v : Int} {values : List Int} :
    v ∈ ascending values ↔ v ∈ values := by
  induction values with
  | nil => simp [ascending]
  | cons w ws ih =>
    rw [show ascending (w :: ws) = insertAscending w (ascending ws) from rfl]
    simp [mem_insertAscending, ih]

/-- The sorted list is strictly ascending. -/
theorem pairwise_ascending (values : List Int) : (ascending values).Pairwise (· < ·) := by
  induction values with
  | nil => exact .nil
  | cons w ws ih => exact pairwise_insertAscending ih

end FiniteDomain
