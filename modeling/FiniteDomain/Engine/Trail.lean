/-!
# The trail

The undo log of the search. Entries belong to the checkpoint that was open when
they were recorded; going back to a checkpoint hands out every entry above it,
newest first. Entries recorded before any checkpoint are permanent.
-/

namespace FiniteDomain.Engine

/-- Recorded entries, newest first, grouped by checkpoint with the innermost first. -/
structure Trail (α : Type) where
  permanent : List α := []
  levels : List (List α) := []
  deriving Repr, Inhabited

namespace Trail

variable {α : Type}

/-- The number of open checkpoints. -/
def depth (t : Trail α) : Nat := t.levels.length

/-- Opens a checkpoint. -/
def openCheckpoint (t : Trail α) : Trail α := { t with levels := [] :: t.levels }

/-- Records an entry at the innermost checkpoint. -/
def record (t : Trail α) (entry : α) : Trail α :=
  match t.levels with
  | [] => { t with permanent := entry :: t.permanent }
  | level :: outer => { t with levels := (entry :: level) :: outer }

/-- The entries above the given depth, newest first. -/
def above (t : Trail α) (depth : Nat) : List α :=
  (t.levels.take (t.depth - depth)).flatten

/-- Closes every checkpoint above the given depth. -/
def closeTo (t : Trail α) (depth : Nat) : Trail α :=
  { t with levels := t.levels.drop (t.depth - depth) }

/-- Opening a checkpoint goes one level down. -/
@[simp] theorem depth_openCheckpoint (t : Trail α) : t.openCheckpoint.depth = t.depth + 1 := rfl

/-- Recording stays at the same level. -/
@[simp] theorem depth_record (t : Trail α) (entry : α) : (t.record entry).depth = t.depth := by
  simp only [record, depth]
  split <;> simp_all

end Trail

end FiniteDomain.Engine
