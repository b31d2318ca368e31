import FiniteDomain.Engine.Propagation
import Mathlib.Data.List.Perm.Subperm

/-!
# The agenda and its marks

A propagator is scheduled unless it is marked, so that the agenda lists it once depends on the
marks: exactly the waiting propagators are marked. Scheduling, going on to the next propagator and
draining the agenda keep this, and with nothing waiting no mark is left.
-/

namespace FiniteDomain.Engine.Queue

variable {q : Queue} {count i j : Nat} {js rest : List Nat} {marked : Array Bool}

/-- Propagators wait once, each has a mark, and the waiting ones are those that are marked. -/
structure Valid (q : Queue) (count : Nat) : Prop where
  nodup : q.agenda.Nodup
  lt : ∀ i ∈ q.agenda, i < count
  size_eq : q.marked.size = count
  marked_iff : ∀ i, q.marked[i]? = some true ↔ i ∈ q.agenda

/-- No propagator is waiting, and none is marked. -/
def idle (count : Nat) : Queue where
  agenda := []
  marked := Array.replicate count false

theorem valid_idle (count : Nat) : (idle count).Valid count where
  nodup := List.nodup_nil
  lt := by simp [idle]
  size_eq := Array.size_replicate
  marked_iff := fun i => by simp [idle, Array.getElem?_replicate]

/-- With nothing waiting no mark is left. -/
theorem Valid.eq_idle (h : q.Valid count) (hnil : q.agenda = []) : q = idle count := by
  have hmarked : q.marked = Array.replicate count false := by
    refine Array.ext (by simp [h.size_eq]) fun i hi _ => ?_
    have hi' : q.marked[i]? ≠ some true := by simp [h.marked_iff, hnil]
    simpa [Array.getElem?_eq_getElem hi] using hi'
  obtain ⟨agenda, marked⟩ := q
  obtain rfl : agenda = [] := hnil
  rw [idle, show marked = _ from hmarked]

/-- A new propagator is not marked. -/
theorem idle_push (count : Nat) :
    ({ agenda := [], marked := (idle count).marked.push false } : Queue) = idle (count + 1) := by
  rw [idle, idle, Array.replicate_succ]

theorem Valid.length_le (h : q.Valid count) : q.agenda.length ≤ count := by
  have hsub : q.agenda ⊆ List.range count := fun i hi => List.mem_range.mpr (h.lt i hi)
  simpa using (List.subperm_of_subset h.nodup hsub).length_le

/-! ## Scheduling -/

theorem Valid.getD_marked (h : q.Valid count) : q.marked.getD i false = true ↔ i ∈ q.agenda := by
  rw [← h.marked_iff i, Array.getD_eq_getD_getElem?]
  cases q.marked[i]? <;> simp

theorem Valid.enqueue_eq (h : q.Valid count) (j : Nat) :
    q.enqueue j = if j ∈ q.agenda then q
      else { agenda := q.agenda ++ [j], marked := q.marked.setIfInBounds j true } := by
  simp only [enqueue, h.getD_marked]

theorem Valid.mem_enqueue (h : q.Valid count) :
    i ∈ (q.enqueue j).agenda ↔ i ∈ q.agenda ∨ i = j := by
  rw [h.enqueue_eq]
  split
  · next hj => exact ⟨.inl, fun hi => hi.elim id fun hij => hij ▸ hj⟩
  · simp

/-- Scheduling marks what it puts on the agenda. -/
theorem Valid.enqueue (h : q.Valid count) (hj : j < count) : (q.enqueue j).Valid count := by
  rw [h.enqueue_eq]
  split
  · exact h
  next hmem =>
  refine ⟨?_, fun i hi => ?_, by simp [h.size_eq], fun i => ?_⟩
  · exact List.nodup_append.mpr ⟨h.nodup, by simp, fun b hb c hc => by
      rw [List.mem_singleton.mp hc]
      exact fun hbj => hmem (hbj ▸ hb)⟩
  · rcases List.mem_append.mp hi with hi | hi
    · exact h.lt i hi
    · exact List.mem_singleton.mp hi ▸ hj
  · simp only [Array.getElem?_setIfInBounds, List.mem_append, List.mem_singleton, ← h.marked_iff i]
    by_cases hij : j = i
    · subst hij
      simp [h.size_eq, hj]
    · simp [hij, Ne.symm hij]

theorem Valid.foldl_enqueue (h : q.Valid count) (hjs : ∀ j ∈ js, j < count) :
    (js.foldl Queue.enqueue q).Valid count ∧
      ∀ i, i ∈ (js.foldl Queue.enqueue q).agenda ↔ i ∈ q.agenda ∨ i ∈ js := by
  induction js generalizing q with
  | nil => exact ⟨h, by simp⟩
  | cons j js ih =>
      obtain ⟨hj, hjs⟩ := List.forall_mem_cons.mp hjs
      obtain ⟨hvalid, hmem⟩ := ih (h.enqueue hj) hjs
      exact ⟨hvalid, fun i => by
        rw [List.foldl_cons, hmem, h.mem_enqueue, List.mem_cons, or_assoc]⟩

/-- Scheduling what belongs to each of some things schedules all of that. -/
theorem Valid.foldl_foldl_enqueue {α : Type} {f : α → List Nat} (h : q.Valid count)
    (hf : ∀ x, ∀ j ∈ f x, j < count) (xs : List α) :
    (xs.foldl (fun q x => (f x).foldl Queue.enqueue q) q).Valid count ∧
      ∀ i, i ∈ (xs.foldl (fun q x => (f x).foldl Queue.enqueue q) q).agenda ↔
        i ∈ q.agenda ∨ ∃ x ∈ xs, i ∈ f x := by
  induction xs generalizing q with
  | nil => exact ⟨h, by simp⟩
  | cons x xs ih =>
      obtain ⟨hvalid, hmem⟩ := h.foldl_enqueue (hf x)
      obtain ⟨hvalid', hmem'⟩ := ih hvalid
      exact ⟨hvalid', fun i => by
        rw [List.foldl_cons, hmem', hmem, List.exists_mem_cons_iff, or_assoc]⟩

/-! ## Taking propagators off -/

/-- The next propagator loses its place and its mark, the others stay. -/
theorem Valid.dequeue (h : q.Valid count) (hagenda : q.agenda = i :: rest) :
    (q.dequeue i rest).Valid count := by
  have hnodup := h.nodup
  rw [hagenda, List.nodup_cons] at hnodup
  refine ⟨hnodup.2, fun j hj => ?_, by simp [Queue.dequeue, h.size_eq], fun j => ?_⟩
  · exact h.lt j (hagenda ▸ List.mem_cons_of_mem i hj)
  · have hj := h.marked_iff j
    rw [hagenda, List.mem_cons] at hj
    simp only [Queue.dequeue, Array.getElem?_setIfInBounds]
    by_cases hij : i = j
    · subst hij
      simp [hnodup.1]
    · simp [hij, hj, Ne.symm hij]

theorem size_foldl_unmark :
    (js.foldl (fun marked p => marked.setIfInBounds p false) marked).size = marked.size := by
  induction js generalizing marked with
  | nil => rfl
  | cons j js ih => rw [List.foldl_cons, ih, Array.size_setIfInBounds]

/-- Only what is not listed keeps its mark. -/
theorem getElem?_foldl_unmark :
    (js.foldl (fun marked p => marked.setIfInBounds p false) marked)[i]? = some true ↔
      marked[i]? = some true ∧ i ∉ js := by
  induction js generalizing marked with
  | nil => simp
  | cons j js ih =>
      rw [List.foldl_cons, ih, Array.getElem?_setIfInBounds, List.mem_cons]
      by_cases hij : j = i
      · simp [hij]
      · simp [hij, Ne.symm hij]

/-- Draining leaves nothing waiting and nothing marked. -/
theorem Valid.drain_eq (h : q.Valid count) : q.drain = idle count := by
  refine Valid.eq_idle ⟨List.nodup_nil, by simp [drain], ?_, fun i => ?_⟩ rfl
  · rw [drain, size_foldl_unmark, h.size_eq]
  · rw [drain, getElem?_foldl_unmark, h.marked_iff]
    simp

end FiniteDomain.Engine.Queue
