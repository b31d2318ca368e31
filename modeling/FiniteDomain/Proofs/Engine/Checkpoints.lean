import FiniteDomain.Proofs.Engine.Losses

/-!
# Checkpoints

A store is only changed by its operations: a view is narrowed, a checkpoint is opened, an earlier
one is returned to, or an action is tried and taken back. Every narrowing that changes a value set
records how to undo just this change, and one that fails records nothing. So whatever happens
above a checkpoint, returning to it gives back the value sets and the trail as they were when it
was opened, and a trial gives back the noted changes as well. Nothing is assumed of the value sets
themselves.
-/

namespace FiniteDomain.Engine

/-- The narrowings of a view. -/
inductive View.Operation (v : View) : Narrowing Unit → Prop
  | atLeast (bound : Int) : Operation v (v.atLeast bound)
  | atMost (bound : Int) : Operation v (v.atMost bound)
  | remove (value : Int) : Operation v (v.remove value)
  | fix (value : Int) : Operation v (v.fix value)

/-- The store that is left behind, whether the action failed or not. -/
def Narrowing.left {α : Type} : EStateM.Result Failure Store α → Store
  | .ok _ t => t
  | .error _ t => t

namespace Store

open Narrowing

variable {s t u : Store} {x : VarIndex} {d : ValueSet} {change : Change} {v : View} {base k : Nat}
  {action first second : Narrowing Unit}

/-- What operations can make of a store without going back below the given depth. A view is
narrowed with success or without, and an action is tried by operations of its own, which stay above
the checkpoint that is opened for it. -/
inductive Evolves : Nat → Store → Store → Prop
  | refl {base : Nat} {s : Store} : Evolves base s s
  | narrow {base : Nat} {s t : Store} {v : View} {action : Narrowing Unit} :
      Evolves base s t → v.Created t → v.Operation action → Evolves base s (left (action t))
  | openCheckpoint {base : Nat} {s t : Store} : Evolves base s t → Evolves base s t.openCheckpoint
  | backtrack {base k : Nat} {s t : Store} :
      Evolves base s t → base ≤ k → k < t.depth → Evolves base s (t.backtrack k)
  | takeModified {base : Nat} {s t : Store} :
      Evolves base s t → Evolves base s { t with modified := #[] }
  | trial {base : Nat} {s t u : Store} :
      Evolves base s t → Evolves (trial t).depth (trial t) u → Evolves base s (restored t u)

/-! ## What a narrowing records -/

/-- A store has changed, and going back to any of its checkpoints takes that back. -/
structure Logged (s t : Store) : Prop where
  depth_eq : t.depth = s.depth
  backtrack_eq : ∀ k < s.depth, t.backtrack k = s.backtrack k

theorem Logged.refl (s : Store) : s.Logged s := ⟨rfl, fun _ _ => rfl⟩

theorem Logged.trans (h : s.Logged t) (h' : t.Logged u) : s.Logged u where
  depth_eq := h'.depth_eq.trans h.depth_eq
  backtrack_eq := fun k hk =>
    (h'.backtrack_eq k (h.depth_eq.symm ▸ hk)).trans (h.backtrack_eq k hk)

/-- An update is logged if its entry gives back the value set that was there before. -/
theorem logged_update (h : undo (s.sets.setIfInBounds x d) change = s.sets) :
    s.Logged (s.update x d change) where
  depth_eq := depth_update
  backtrack_eq := fun k hk => by
    simp only [backtrack, update, Trail.above_record hk, Trail.closeTo_record hk, List.foldl_cons, h]

theorem logged_tightenLower (x : VarIndex) (bound : Int) (s : Store) :
    s.Logged (left (tightenLower x bound s)) := by
  simp only [tightenLower]
  split
  · exact .refl s
  split
  · exact .refl s
  cases (s.set x).firstFrom bound with
  | none => exact .refl s
  | some b => exact logged_update (modify_setIfInBounds rfl)

theorem logged_tightenUpper (x : VarIndex) (bound : Int) (s : Store) :
    s.Logged (left (tightenUpper x bound s)) := by
  simp only [tightenUpper]
  split
  · exact .refl s
  split
  · exact .refl s
  cases (s.set x).lastUntil bound with
  | none => exact .refl s
  | some b => exact logged_update (modify_setIfInBounds rfl)

theorem logged_removeValue (x : VarIndex) (value : Int) (s : Store) :
    s.Logged (left (removeValue x value s)) := by
  simp only [removeValue]
  split
  · exact .refl s
  split
  · exact logged_tightenLower x (value + 1) s
  split
  · exact logged_tightenUpper x (value - 1) s
  · exact logged_update (modify_setIfInBounds (by simp))

theorem logged_atLeast (v : View) (bound : Int) (s : Store) :
    s.Logged (left (v.atLeast bound s)) := by
  cases v with
  | constant c =>
      rw [View.atLeast]
      split <;> exact .refl s
  | affine x negated offset =>
      rw [View.atLeast]
      split
      · exact logged_tightenUpper x _ s
      · exact logged_tightenLower x _ s

theorem logged_atMost (v : View) (bound : Int) (s : Store) :
    s.Logged (left (v.atMost bound s)) := by
  cases v with
  | constant c =>
      rw [View.atMost]
      split <;> exact .refl s
  | affine x negated offset =>
      rw [View.atMost]
      split
      · exact logged_tightenLower x _ s
      · exact logged_tightenUpper x _ s

theorem logged_remove (v : View) (value : Int) (s : Store) :
    s.Logged (left (v.remove value s)) := by
  cases v with
  | constant c =>
      rw [View.remove]
      split <;> exact .refl s
  | affine x negated offset => exact logged_removeValue x _ s

/-- A failure of the second narrowing leaves what the first one did. -/
theorem Logged.seq (h : s.Logged (left (first s))) (h' : ∀ t : Store, t.Logged (left (second t))) :
    s.Logged (left ((do first; second) s)) := by
  simp only [bind, EStateM.bind]
  match first s, h with
  | .ok _ t, h => exact h.trans (h' t)
  | .error f t, h => exact h

/-- Whether it fails or not, a narrowing of a view records all that it changes. -/
theorem logged_operation (h : v.Operation action) (s : Store) : s.Logged (left (action s)) := by
  cases h with
  | atLeast bound => exact logged_atLeast v bound s
  | atMost bound => exact logged_atMost v bound s
  | remove value => exact logged_remove v value s
  | fix value => exact (logged_atLeast v value s).seq fun t => logged_atMost v value t

/-! ## Going back -/

/-- What is tried from a checkpoint of its own is taken back, and the noted changes are again
those from before. -/
theorem restored_of_backtrack (h : u.backtrack s.depth = (Narrowing.trial s).backtrack s.depth) :
    restored s u = s := by
  have hback : (Narrowing.trial s).backtrack s.depth = { s with modified := #[] } :=
    (backtrack_openCheckpoint (s := { s with modified := #[] }) le_rfl).trans backtrack_depth
  rw [restored, h, hback]

/-- Operations that stay above a depth leave alone what lies below it. -/
theorem Evolves.backtrack_eq (h : Evolves base s t) (hbase : base ≤ s.depth) :
    base ≤ t.depth ∧ ∀ k < base, t.backtrack k = s.backtrack k := by
  induction h with
  | refl => exact ⟨hbase, fun _ _ => rfl⟩
  | @narrow _ _ t v action _ _ hop ih =>
      obtain ⟨hdepth, hback⟩ := ih hbase
      have hlogged := logged_operation hop t
      exact ⟨hlogged.depth_eq ▸ hdepth, fun k hk =>
        (hlogged.backtrack_eq k (hk.trans_le hdepth)).trans (hback k hk)⟩
  | @openCheckpoint _ _ t _ ih =>
      obtain ⟨hdepth, hback⟩ := ih hbase
      exact ⟨hdepth.trans (Nat.le_succ _), fun k hk =>
        (backtrack_openCheckpoint (hk.le.trans hdepth)).trans (hback k hk)⟩
  | @backtrack _ j _ t _ hj hlt ih =>
      obtain ⟨-, hback⟩ := ih hbase
      exact ⟨hj.trans (depth_backtrack hlt.le).ge, fun k hk =>
        (backtrack_backtrack (hk.le.trans hj) hlt.le).trans (hback k hk)⟩
  | takeModified _ ih => exact ih hbase
  | @trial _ _ t u _ _ ih ihtrial =>
      rw [restored_of_backtrack ((ihtrial le_rfl).2 t.depth (Nat.lt_succ_self _))]
      exact ih hbase

/-- Going back to a checkpoint gives back the store in which it was opened, all its value sets and
its trail, whatever operations were performed above it. And trying an action tells whether it fails,
at once or midway, and gives back the store with its noted changes. -/
theorem backtrack_restores (s : Store) :
    (∀ t, Evolves s.openCheckpoint.depth s.openCheckpoint t →
      t.backtrack s.depth = { s with modified := #[] }) ∧
    ∀ action : Narrowing Unit, Evolves (Narrowing.trial s).depth (Narrowing.trial s)
        (left (action (Narrowing.trial s))) →
      match action (Narrowing.trial s) with
      | .ok _ _ => wouldFail action s = .ok false s
      | .error .conflict _ => wouldFail action s = .ok true s
      | .error .overflow _ => True := by
  constructor
  · intro t h
    rw [(h.backtrack_eq le_rfl).2 s.depth (Nat.lt_succ_self _), backtrack_openCheckpoint le_rfl,
      backtrack_depth]
  · intro action h
    have hrestored := restored_of_backtrack ((h.backtrack_eq le_rfl).2 s.depth (Nat.lt_succ_self _))
    rw [wouldFail_eq]
    match action (Narrowing.trial s), hrestored with
    | .ok _ t, hrestored => exact congrArg (EStateM.Result.ok false) hrestored
    | .error .conflict t, hrestored => exact congrArg (EStateM.Result.ok true) hrestored
    | .error .overflow t, _ => trivial

/-- A variable with the values from 0 to 9. -/
def digit : Store := ({} : Store).addVariable (.interval 0 9)

/-- The same without 4, above a checkpoint. -/
def gapped : Store := left ((View.ofVar 0).remove 4 digit.openCheckpoint)

/-- Fixing the value that is missing moves the lower bound before it fails. Both are taken back by
the inner checkpoint, and the removal and a further bound by the outer one; tried before that, the
same action leaves the missing value missing. -/
theorem backtrack_restores_digit :
    (left ((View.ofVar 0).atMost 3
      ((left ((View.ofVar 0).fix 4 gapped.openCheckpoint)).backtrack 1))).backtrack 0 = digit ∧
    wouldFail ((View.ofVar 0).fix 4) gapped = .ok true gapped := by
  have hcreated : ∀ r : Store, r.numVariables = 1 → (View.ofVar 0).Created r := fun r hr y hy => by
    cases hy
    exact hr ▸ Nat.one_pos
  have hgapped : Evolves 1 digit.openCheckpoint gapped :=
    .narrow .refl (hcreated digit.openCheckpoint rfl) (.remove 4)
  have hfixed := hgapped.openCheckpoint.narrow (hcreated gapped.openCheckpoint rfl) (.fix 4)
  have hback := hfixed.backtrack le_rfl (by decide)
  have htrial : Evolves 2 (trial gapped) (left ((View.ofVar 0).fix 4 (trial gapped))) :=
    .narrow .refl (hcreated (trial gapped) rfl) (.fix 4)
  exact ⟨(backtrack_restores digit).1 _ (hback.narrow (hcreated _ rfl) (.atMost 3)),
    (backtrack_restores gapped).2 ((View.ofVar 0).fix 4) htrial⟩

end Store

end FiniteDomain.Engine
