import FiniteDomain.Engine.Meaning
import FiniteDomain.Proofs.Engine.ValueSets
import Mathlib.Algebra.Order.BigOperators.Group.Finset
import Mathlib.Algebra.BigOperators.Group.Finset.Sigma

/-!
# Narrowing a store

A store only ever changes by losses: one variable is left with fewer values, and the trail
records how to give them back. So a store that narrows keeps its checkpoints, loses
slack with every change, notes every variable that changed, and backtracks to where it
would have backtracked before. The changes of a single variable are losses or conflicts,
and they keep exactly the values that they are asked to keep.
-/

namespace FiniteDomain.Engine

namespace Trail

variable {α : Type} {t : Trail α} {entry : α} {j k : Nat}

theorem above_record (h : k < t.depth) : (t.record entry).above k = entry :: t.above k := by
  obtain ⟨permanent, levels⟩ := t
  cases levels with
  | nil => simp [depth] at h
  | cons level outer =>
      simp only [depth, List.length_cons] at h
      simp [record, above, depth, show outer.length + 1 - k = outer.length - k + 1 by omega]

theorem closeTo_record (h : k < t.depth) : (t.record entry).closeTo k = t.closeTo k := by
  obtain ⟨permanent, levels⟩ := t
  cases levels with
  | nil => simp [depth] at h
  | cons level outer =>
      simp only [depth, List.length_cons] at h
      simp [record, closeTo, depth, show outer.length + 1 - k = outer.length - k + 1 by omega]

theorem above_openCheckpoint (h : k ≤ t.depth) : t.openCheckpoint.above k = t.above k := by
  simp only [depth] at h
  simp [openCheckpoint, above, depth, show t.levels.length + 1 - k = t.levels.length - k + 1 by omega]

theorem closeTo_openCheckpoint_of_le (h : k ≤ t.depth) :
    t.openCheckpoint.closeTo k = t.closeTo k := by
  simp only [depth] at h
  simp [openCheckpoint, closeTo, depth, show t.levels.length + 1 - k = t.levels.length - k + 1 by omega]

@[simp] theorem above_depth (t : Trail α) : t.above t.depth = [] := by
  simp [above]

@[simp] theorem closeTo_depth (t : Trail α) : t.closeTo t.depth = t := by
  simp [closeTo]

theorem depth_closeTo (h : k ≤ t.depth) : (t.closeTo k).depth = k := by
  simp only [depth] at h
  simp only [closeTo, depth, List.length_drop]
  omega

/-- The entries above a depth are those above a larger one, and then those below it. -/
theorem above_closeTo (hkj : k ≤ j) (hj : j ≤ t.depth) :
    t.above j ++ (t.closeTo j).above k = t.above k := by
  have hd := depth_closeTo hj
  simp only [depth] at hj
  have hsplit : t.levels.length - k = (t.levels.length - j) + (j - k) := by omega
  simp only [above, hd]
  simp only [depth, closeTo, hsplit, List.take_add, List.flatten_append]

theorem closeTo_closeTo (hkj : k ≤ j) (hj : j ≤ t.depth) :
    (t.closeTo j).closeTo k = t.closeTo k := by
  have hd := depth_closeTo hj
  simp only [depth] at hj
  rw [closeTo, hd]
  simp [closeTo, depth, List.drop_drop, show t.levels.length - j + (j - k) = t.levels.length - k by omega]

end Trail

namespace Store

variable {s t u : Store} {x y : VarIndex} {d : ValueSet} {change : Change} {v : Int} {k j : Nat}

/-- Every variable has a proper value set. -/
def Proper (s : Store) : Prop := ∀ x < s.numVariables, (s.set x).Proper

@[simp] theorem numVariables_update : (s.update x d change).numVariables = s.numVariables := by
  simp [update, numVariables]

theorem set_update_self (h : x < s.numVariables) : (s.update x d change).set x = d := by
  simp [update, set, numVariables] at h ⊢
  simp [h]

theorem set_update_ne (h : y ≠ x) : (s.update x d change).set y = s.set y := by
  simp [update, set, Array.getD_eq_getD_getElem?, Array.getElem?_setIfInBounds_ne h.symm]

@[simp] theorem depth_update : (s.update x d change).depth = s.depth := by
  simp [update, depth]

/-- Values that can still be lost, summed over all variables. -/
def slack (s : Store) : Nat := ∑ x ∈ Finset.range s.numVariables, (s.set x).slack

/-- A variable is left with fewer values, and the change says how to give them back. -/
structure Loss (s : Store) (x : VarIndex) (d : ValueSet) (change : Change) : Prop where
  bound : x < s.numVariables
  proper : d.Proper
  subset : ∀ v ∈ d, v ∈ s.set x
  lost : ∃ v ∈ s.set x, v ∉ d
  undone : undo (s.sets.setIfInBounds x d) change = s.sets

/-- A store arises from another by losses alone. -/
inductive Narrows (s : Store) : Store → Prop
  | refl : Narrows s s
  | lose {t : Store} {x : VarIndex} {d : ValueSet} {change : Change} :
      Narrows s t → Loss t x d change → Narrows s (t.update x d change)

theorem Loss.slack_lt (h : s.Loss x d change) : (s.update x d change).slack < s.slack := by
  obtain ⟨w, hw, hwd⟩ := h.lost
  have hx : (d.slack) < (s.set x).slack := ValueSet.slack_lt h.proper h.subset hw hwd
  simp only [slack, numVariables_update]
  refine Finset.sum_lt_sum (fun y _ => ?_) ⟨x, Finset.mem_range.mpr h.bound, ?_⟩
  · by_cases hy : y = x
    · subst hy
      rw [set_update_self h.bound]
      exact hx.le
    · rw [set_update_ne hy]
  · rw [set_update_self h.bound]
    exact hx

/-- A single loss is undone by its change, also from above further checkpoints. -/
theorem Loss.backtrack_update (h : s.Loss x d change) (hk : k < s.depth) :
    (s.update x d change).backtrack k = s.backtrack k := by
  simp only [backtrack, update, Trail.above_record hk, Trail.closeTo_record hk, List.foldl_cons,
    h.undone]

namespace Narrows

theorem trans (hst : s.Narrows t) (htu : t.Narrows u) : s.Narrows u := by
  induction htu with
  | refl => exact hst
  | lose _ hloss ih => exact ih.lose hloss

theorem single (h : s.Loss x d change) : s.Narrows (s.update x d change) := .lose .refl h

theorem numVariables_eq (h : s.Narrows t) : t.numVariables = s.numVariables := by
  induction h with
  | refl => rfl
  | lose _ _ ih => rw [numVariables_update, ih]

theorem depth_eq (h : s.Narrows t) : t.depth = s.depth := by
  induction h with
  | refl => rfl
  | lose _ _ ih => rw [depth_update, ih]

theorem subset (h : s.Narrows t) (hv : v ∈ t.set x) : v ∈ s.set x := by
  induction h with
  | refl => exact hv
  | @lose t y d change _ hloss ih =>
      by_cases hy : x = y
      · subst hy
        rw [set_update_self hloss.bound] at hv
        exact ih (hloss.subset v hv)
      · rw [set_update_ne hy] at hv
        exact ih hv

theorem proper (h : s.Narrows t) (hs : s.Proper) : t.Proper := by
  induction h with
  | refl => exact hs
  | @lose t y d change _ hloss ih =>
      intro x hx
      rw [numVariables_update] at hx
      by_cases hy : x = y
      · subst hy
        rw [set_update_self hloss.bound]
        exact hloss.proper
      · rw [set_update_ne hy]
        exact ih x hx

/-- What the narrowed store admits was admitted before. -/
theorem admits (h : s.Narrows t) {a : Valuation} (ha : t.Admits a) : s.Admits a :=
  fun x hx => h.subset (ha x (h.numVariables_eq ▸ hx))

/-- Every change costs slack. -/
theorem eq_or_slack_lt (h : s.Narrows t) : t = s ∨ t.slack < s.slack := by
  induction h with
  | refl => exact .inl rfl
  | lose _ hloss ih =>
      have hlt := hloss.slack_lt
      rcases ih with rfl | ih
      · exact .inr hlt
      · exact .inr (hlt.trans ih)

/-- Losses that leave every set as it was are none. -/
theorem eq_of_sets (h : s.Narrows t) (hsets : ∀ x, t.set x = s.set x) : t = s := by
  rcases h.eq_or_slack_lt with heq | hlt
  · exact heq
  · simp [slack, h.numVariables_eq, hsets] at hlt

theorem slack_le (h : s.Narrows t) : t.slack ≤ s.slack := by
  rcases h.eq_or_slack_lt with rfl | h
  · exact le_rfl
  · exact h.le

/-- Losses that are followed by losses back to the same store are none. -/
theorem antisymm (h : s.Narrows t) (h' : t.Narrows s) : t = s := by
  rcases h.eq_or_slack_lt with heq | hlt
  · exact heq
  · exact absurd h'.slack_le (by omega)

/-- What was noted as changed stays noted. -/
theorem modified_mono (h : s.Narrows t) (hx : x ∈ s.modified) : x ∈ t.modified := by
  induction h with
  | refl => exact hx
  | lose _ _ ih => exact Array.mem_push.mpr (.inl ih)

/-- A variable with another value set is noted as changed. -/
theorem mem_modified (h : s.Narrows t) (hx : t.set x ≠ s.set x) : x ∈ t.modified := by
  induction h with
  | refl => exact absurd rfl hx
  | @lose t y d change _ hloss ih =>
      by_cases hy : x = y
      · subst hy
        exact Array.mem_push_self
      · rw [set_update_ne hy] at hx
        exact Array.mem_push.mpr (.inl (ih hx))

/-- Losses are undone by going back to an earlier checkpoint. -/
theorem backtrack_eq (h : s.Narrows t) (hk : k < s.depth) : t.backtrack k = s.backtrack k := by
  induction h with
  | refl => rfl
  | lose hst hloss ih => rw [hloss.backtrack_update (hst.depth_eq ▸ hk), ih]

end Narrows

/-- A store lies below another one with the same variables if it leaves none more values. -/
instance : LE Store :=
  ⟨fun t s => t.numVariables = s.numVariables ∧ ∀ x v, v ∈ t.set x → v ∈ s.set x⟩

theorem le_trans (hut : u ≤ t) (hts : t ≤ s) : u ≤ s :=
  ⟨hut.1.trans hts.1, fun x v hv => hts.2 x v (hut.2 x v hv)⟩

theorem numVariables_eq_of_le (h : t ≤ s) : t.numVariables = s.numVariables := h.1

theorem mem_of_le (h : t ≤ s) (hv : v ∈ t.set x) : v ∈ s.set x := h.2 x v hv

theorem le_of_sets (h : t.sets = s.sets) : t ≤ s := by
  refine ⟨?_, fun x v hv => ?_⟩
  · rw [numVariables, numVariables, h]
  · simpa only [set, h] using hv

theorem admits_of_le (h : t ≤ s) {a : Valuation} (ha : t.Admits a) : s.Admits a :=
  fun x hx => mem_of_le h (ha x (h.1 ▸ hx))

/-- A store extends another one if it has further variables at most. -/
structure Extends (s t : Store) : Prop where
  numVariables_le : s.numVariables ≤ t.numVariables
  set_eq : ∀ x < s.numVariables, t.set x = s.set x

theorem Extends.refl (s : Store) : s.Extends s := ⟨le_rfl, fun _ _ => rfl⟩

theorem Extends.trans (h : s.Extends t) (h' : t.Extends u) : s.Extends u where
  numVariables_le := h.numVariables_le.trans h'.numVariables_le
  set_eq := fun x hx =>
    (h'.set_eq x (hx.trans_le h.numVariables_le)).trans (h.set_eq x hx)

theorem Extends.admits (h : s.Extends t) {a : Valuation} (ha : t.Admits a) : s.Admits a :=
  fun x hx => h.set_eq x hx ▸ ha x (hx.trans_le h.numVariables_le)

@[simp] theorem numVariables_addVariable :
    (s.addVariable d).numVariables = s.numVariables + 1 := by
  simp [addVariable, numVariables]

theorem set_addVariable_self : (s.addVariable d).set s.numVariables = d := by
  simp [addVariable, numVariables, set]

theorem extends_addVariable (s : Store) (d : ValueSet) : s.Extends (s.addVariable d) where
  numVariables_le := by simp
  set_eq := fun x hx => by
    simp only [numVariables] at hx
    simp [addVariable, set, Array.getElem?_push, hx.ne]

theorem proper_addVariable (hs : s.Proper) (hd : d.Proper) : (s.addVariable d).Proper := by
  intro x hx
  rw [numVariables_addVariable] at hx
  rcases Nat.lt_succ_iff_lt_or_eq.mp hx with hx | rfl
  · rw [(s.extends_addVariable d).set_eq x hx]
    exact hs x hx
  · rw [set_addVariable_self]
    exact hd

/-- A store in which every variable has the values between two numbers is proper. -/
theorem proper_of_intervals (bounds : List (Int × Int))
    (h : ∀ b ∈ bounds, b.1 ≤ b.2 ∧ word32.Fits b.1 ∧ word32.Fits b.2) :
    Proper { sets := (bounds.map fun b => .interval b.1 b.2).toArray } := by
  intro x hx
  have hx : x < bounds.length := by simpa [numVariables] using hx
  obtain ⟨hle, hlower, hupper⟩ := h _ (List.getElem_mem hx)
  simpa [set, hx] using ValueSet.proper_interval hle hlower hupper

theorem admits_addVariable {a : Valuation} :
    (s.addVariable d).Admits a ↔ s.Admits a ∧ a s.numVariables ∈ d := by
  constructor
  · intro h
    refine ⟨(s.extends_addVariable d).admits h, ?_⟩
    have := h s.numVariables (by simp)
    rwa [set_addVariable_self] at this
  · rintro ⟨h, hd⟩ x hx
    rw [numVariables_addVariable] at hx
    rcases Nat.lt_succ_iff_lt_or_eq.mp hx with hx | rfl
    · rw [(s.extends_addVariable d).set_eq x hx]
      exact h x hx
    · rwa [set_addVariable_self]

theorem addVariable_le_addVariable (h : t ≤ s) : t.addVariable d ≤ s.addVariable d := by
  refine ⟨by simp [h.1], fun x v hv => ?_⟩
  rcases lt_trichotomy x t.numVariables with hx | rfl | hx
  · rw [(t.extends_addVariable d).set_eq x hx] at hv
    rw [(s.extends_addVariable d).set_eq x (h.1 ▸ hx)]
    exact mem_of_le h hv
  · rw [set_addVariable_self] at hv
    rw [h.1, set_addVariable_self]
    exact hv
  · have hnone : ∀ r : Store, r.numVariables < x → (r.addVariable d).set x = default := fun r hr => by
      simp only [numVariables] at hr
      simp [addVariable, set, Array.getElem?_push, hr.ne', Array.getElem?_eq_none hr.le]
    rw [hnone t hx] at hv
    rw [hnone s (h.1 ▸ hx)]
    exact hv

theorem Narrows.le (h : s.Narrows t) : t ≤ s := ⟨h.numVariables_eq, fun _ _ hv => h.subset hv⟩

/-- A store arises from another by losses, whatever has been noted as changed meanwhile. -/
def Yields (s t : Store) : Prop := ∃ changed, s.Narrows { t with modified := changed }

theorem Narrows.yields (h : s.Narrows t) : s.Yields t := ⟨t.modified, h⟩

theorem yields_clear (s : Store) (changed : Array VarIndex) :
    s.Yields { s with modified := changed } := ⟨s.modified, .refl⟩

/-- Losses do not depend on what has been noted as changed. -/
theorem Narrows.withModified (h : s.Narrows t) (before : Array VarIndex) :
    ∃ after, Narrows { s with modified := before } { t with modified := after } := by
  induction h with
  | refl => exact ⟨before, .refl⟩
  | lose _ hloss ih =>
      obtain ⟨after, hafter⟩ := ih
      obtain ⟨hbound, hproper, hsubset, hlost, hundone⟩ := hloss
      exact ⟨_, hafter.lose ⟨hbound, hproper, hsubset, hlost, hundone⟩⟩

namespace Yields

theorem trans (hst : s.Yields t) (htu : t.Yields u) : s.Yields u := by
  obtain ⟨before, hst⟩ := hst
  obtain ⟨after, htu⟩ := htu
  obtain ⟨after', htu⟩ := htu.withModified before
  exact ⟨after', hst.trans htu⟩

theorem le (h : s.Yields t) : t ≤ s := h.choose_spec.le

theorem depth_eq (h : s.Yields t) : t.depth = s.depth := h.choose_spec.depth_eq

theorem proper (h : s.Yields t) (hs : s.Proper) : t.Proper := h.choose_spec.proper hs

theorem admits (h : s.Yields t) {a : Valuation} (ha : t.Admits a) : s.Admits a :=
  h.choose_spec.admits ha

theorem slack_le (h : s.Yields t) : t.slack ≤ s.slack := h.choose_spec.slack_le

theorem backtrack_eq (h : s.Yields t) (hk : k < s.depth) : t.backtrack k = s.backtrack k :=
  h.choose_spec.backtrack_eq hk

end Yields

/-! ## Checkpoints -/

@[simp] theorem numVariables_openCheckpoint : s.openCheckpoint.numVariables = s.numVariables := rfl

@[simp] theorem set_openCheckpoint : s.openCheckpoint.set x = s.set x := rfl

@[simp] theorem depth_openCheckpoint : s.openCheckpoint.depth = s.depth + 1 := rfl

theorem backtrack_openCheckpoint (h : k ≤ s.depth) :
    s.openCheckpoint.backtrack k = s.backtrack k := by
  simp only [backtrack, openCheckpoint, Trail.above_openCheckpoint h,
    Trail.closeTo_openCheckpoint_of_le h]

theorem depth_backtrack (h : k ≤ s.depth) : (s.backtrack k).depth = k :=
  Trail.depth_closeTo h

/-- Nothing is taken back at the current depth. -/
theorem backtrack_depth : s.backtrack s.depth = { s with modified := #[] } := by
  simp [backtrack, depth]

/-- Going back in two steps is going back in one. -/
theorem backtrack_backtrack (hkj : k ≤ j) (hj : j ≤ s.depth) :
    (s.backtrack j).backtrack k = s.backtrack k := by
  simp only [backtrack, ← Trail.above_closeTo hkj hj, List.foldl_append,
    Trail.closeTo_closeTo hkj hj]

/-- Whatever was lost since a checkpoint was opened is back after returning to it. -/
theorem backtrack_of_narrows_openCheckpoint (h : s.openCheckpoint.Narrows t) :
    t.backtrack s.depth = { s with modified := #[] } := by
  rw [h.backtrack_eq (by simp), backtrack_openCheckpoint le_rfl, backtrack_depth]

/-! ## Changing one variable -/

/-- Changing a value set and changing it back. -/
theorem modify_setIfInBounds {f : ValueSet → ValueSet} (hf : f d = s.set x) :
    (s.sets.setIfInBounds x d).modify x f = s.sets := by
  apply Array.ext
  · simp
  · intro i h1 h2
    by_cases hi : x = i
    · subst hi
      simp [Array.getElem_modify, hf, set, h2]
    · simp only [Array.getElem_modify, if_neg hi]
      exact Array.getElem_setIfInBounds_ne h2 hi

/-- The outcome of narrowing a variable to the values with a property. -/
inductive Narrowed (s : Store) (x : VarIndex) (p : Int → Prop) :
    EStateM.Result Failure Store Unit → Prop
  | same : (∀ w ∈ s.set x, p w) → Narrowed s x p (.ok () s)
  | less (d : ValueSet) (change : Change) : s.Loss x d change →
      (∀ w, w ∈ d ↔ w ∈ s.set x ∧ p w) → Narrowed s x p (.ok () (s.update x d change))
  | conflict : (∀ w ∈ s.set x, ¬ p w) → Narrowed s x p (.error .conflict s)

theorem Narrowed.congr {p q : Int → Prop} {r : EStateM.Result Failure Store Unit}
    (h : s.Narrowed x p r) (hpq : ∀ w ∈ s.set x, (p w ↔ q w)) : s.Narrowed x q r := by
  cases h with
  | same hp => exact .same fun w hw => (hpq w hw).mp (hp w hw)
  | less d change hloss hd =>
      refine .less d change hloss fun w => (hd w).trans ?_
      exact and_congr_right fun hw => hpq w hw
  | conflict hp => exact .conflict fun w hw hq => hp w hw ((hpq w hw).mpr hq)

/-- Raising the lower bound keeps the values that are large enough. -/
theorem narrowed_tightenLower (hs : s.Proper) (hx : x < s.numVariables) (v : Int) :
    s.Narrowed x (v ≤ ·) (tightenLower x v s) := by
  have hd := hs x hx
  simp only [tightenLower]
  split
  · next hv => exact .same fun w hw => hv.trans (ValueSet.lower_le hw)
  · split
    · next hv =>
      refine .conflict fun w hw => ?_
      have := ValueSet.le_upper hw
      omega
    · split
      · next hnone =>
        refine .conflict fun w hw => ?_
        have := ValueSet.firstFrom_eq_none hnone hw
        omega
      · next b hb =>
        obtain ⟨hmem, hvb, hleast⟩ := ValueSet.firstFrom_spec hd hb
        have hlb := ValueSet.lower_le hmem
        refine .less _ _ ⟨hx, hd.withLower hmem, fun w hw => ((ValueSet.mem_withLower hlb).mp hw).1,
          ⟨(s.set x).lower, hd.lower_mem, fun hw => ?_⟩, ?_⟩ fun w => ?_
        · have := ((ValueSet.mem_withLower hlb).mp hw).2
          omega
        · exact modify_setIfInBounds rfl
        · rw [ValueSet.mem_withLower hlb]
          exact ⟨fun h => ⟨h.1, hvb.trans h.2⟩, fun h => ⟨h.1, hleast w h.1 h.2⟩⟩

/-- Lowering the upper bound keeps the values that are small enough. -/
theorem narrowed_tightenUpper (hs : s.Proper) (hx : x < s.numVariables) (v : Int) :
    s.Narrowed x (· ≤ v) (tightenUpper x v s) := by
  have hd := hs x hx
  simp only [tightenUpper]
  split
  · next hv => exact .same fun w hw => (ValueSet.le_upper hw).trans hv
  · split
    · next hv =>
      refine .conflict fun w hw => ?_
      have := ValueSet.lower_le hw
      omega
    · split
      · next hnone =>
        refine .conflict fun w hw => ?_
        have := ValueSet.lastUntil_eq_none hnone hw
        omega
      · next b hb =>
        obtain ⟨hmem, hbv, hgreatest⟩ := ValueSet.lastUntil_spec hd hb
        have hbu := ValueSet.le_upper hmem
        refine .less _ _ ⟨hx, hd.withUpper hmem, fun w hw => ((ValueSet.mem_withUpper hbu).mp hw).1,
          ⟨(s.set x).upper, hd.upper_mem, fun hw => ?_⟩, ?_⟩ fun w => ?_
        · have := ((ValueSet.mem_withUpper hbu).mp hw).2
          omega
        · exact modify_setIfInBounds rfl
        · rw [ValueSet.mem_withUpper hbu]
          exact ⟨fun h => ⟨h.1, h.2.trans hbv⟩, fun h => ⟨h.1, hgreatest w h.1 h.2⟩⟩

/-- Removing a value keeps all others. -/
theorem narrowed_removeValue (hs : s.Proper) (hx : x < s.numVariables) (v : Int) :
    s.Narrowed x (· ≠ v) (removeValue x v s) := by
  have hd := hs x hx
  simp only [removeValue]
  split
  · next hv =>
    refine .same fun w hw hwv => ?_
    subst hwv
    simp [ValueSet.mem_def.mp hw] at hv
  · next hv =>
    have hmem : v ∈ s.set x := by simpa [ValueSet.mem_def] using hv
    split
    · next hl =>
      refine (narrowed_tightenLower hs hx (v + 1)).congr fun w hw => ?_
      have := ValueSet.lower_le hw
      omega
    · split
      · next hu =>
        refine (narrowed_tightenUpper hs hx (v - 1)).congr fun w hw => ?_
        have := ValueSet.le_upper hw
        omega
      · next hl hu =>
        refine .less _ _ ⟨hx, hd.withRemoved hl hu,
          fun w hw => (ValueSet.mem_withRemoved.mp hw).1,
          ⟨v, hmem, fun hw => (ValueSet.mem_withRemoved.mp hw).2 rfl⟩, ?_⟩ fun w => ?_
        · exact modify_setIfInBounds (by simp [set])
        · exact ValueSet.mem_withRemoved

/-! ## Bounding the number of losses -/

theorem foldl_size_eq (sets : List ValueSet) (n : Nat) :
    sets.foldl (fun n d => n + d.size) n =
      n + ∑ i ∈ Finset.range sets.length, (sets.getD i default).size := by
  induction sets generalizing n with
  | nil => simp
  | cons d ds ih =>
      rw [List.foldl_cons, ih, List.length_cons, Finset.sum_range_succ']
      simp only [List.getD_cons_succ, List.getD_cons_zero]
      omega

/-- The potential exceeds what can be lost. -/
theorem slack_lt_potential (s : Store) : s.slack < s.potential := by
  have hsize : s.potential = 1 + ∑ x ∈ Finset.range s.numVariables, (s.set x).size := by
    simp only [potential, ← Array.foldl_toList, foldl_size_eq, Array.length_toList, numVariables,
      set]
    refine congrArg (1 + ·) (Finset.sum_congr rfl fun i hi => ?_)
    simp [List.getD_eq_getElem?_getD, Array.getD_eq_getD_getElem?]
  have hle : s.slack ≤ ∑ x ∈ Finset.range s.numVariables, (s.set x).size :=
    Finset.sum_le_sum fun x _ => ValueSet.slack_le_size _
  omega

end Store

end FiniteDomain.Engine
