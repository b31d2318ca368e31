import FiniteDomain.Engine.Rule.Distinct
import FiniteDomain.Proofs.Engine.Narrowing
import Mathlib.Data.List.Nodup

/-!
# All-different

Removing the value of a fixed view from all other views loses no valuation with pairwise
different values. With all views fixed each of them is compared with those after it.
-/

namespace FiniteDomain.Engine

open Narrowing

namespace AllDifferent

variable {s : Store} {needed : Valuation → Prop} {small : Prop} {views : List View} {a : Valuation}

theorem propagateFrom_cons (before after : List View) (v : View) :
    propagateFrom before (v :: after) = (do
      whenFixed v fun value => (before ++ after).forM (·.remove value)
      propagateFrom (before ++ [v]) after) := by
  rw [whenFixed_bind]
  refine bind_congr fun value => ?_
  cases value <;> rfl

theorem prunes_propagateFrom (hs : s.Proper) {before : List View}
    (hbefore : ∀ v ∈ before, v.Exact s) (hviews : ∀ v ∈ views, v.Exact s)
    (h : ∀ a, needed a → ((before ++ views).map (View.eval a)).Nodup) :
    Prunes s needed small (propagateFrom before views) fun _ => True := by
  induction views generalizing before with
  | nil => exact .pure trivial
  | cons v after ih =>
      have hafter : ∀ w ∈ after, w.Exact s := fun w hw => hviews w (List.mem_cons_of_mem v hw)
      rw [propagateFrom_cons]
      refine (prunes_whenFixed hs (hviews v (by simp)) fun value hvalue => ?_).bind fun _ _ => ?_
      · have hvisit : ∀ w ∈ before ++ after, Prunes s needed small (w.remove value) fun _ => True := by
          intro w hw
          have hexact : w.Exact s := (List.mem_append.mp hw).elim (hbefore w) (hafter w)
          refine prunes_remove hs hexact.created fun a ha heq => ?_
          have hnodup := h a ha
          rw [List.map_append, List.map_cons, List.nodup_middle, ← List.map_append] at hnodup
          refine (List.nodup_cons.mp hnodup).1 ?_
          rw [hvalue a ha, ← heq]
          exact List.mem_map_of_mem hw
        exact (Obeys.forM hvisit).weaken fun _ _ => trivial
      · refine ih (fun w hw => ?_) hafter fun a ha => by simpa using h a ha
        rcases List.mem_append.mp hw with hw | hw
        · exact hbefore w hw
        · exact List.mem_singleton.mp hw ▸ hviews v (by simp)

theorem prunes (hs : s.Proper) (hviews : ∀ v ∈ views, v.Exact s)
    (h : ∀ a, needed a → (views.map (View.eval a)).Nodup) :
    Prunes s needed small (propagate views) fun _ => True :=
  prunes_propagateFrom hs (by simp) hviews h

theorem hasRepeat_iff (values : List Int) : hasRepeat values = true ↔ ¬ values.Nodup := by
  induction values with
  | nil => simp [hasRepeat]
  | cons v vs ih =>
      simp only [hasRepeat, Bool.or_eq_true, List.contains_iff_mem, ih, List.nodup_cons]
      tauto

/-- The values of the fixed views are among the values of all views. -/
theorem sublist_value? (hs : s.Proper) (hviews : ∀ v ∈ views, v.Exact s) (ha : s.Admits a) :
    (views.filterMap s.value?).Sublist (views.map (View.eval a)) := by
  induction views with
  | nil => simp
  | cons v vs ih =>
      have ih := ih fun w hw => hviews w (List.mem_cons_of_mem v hw)
      rw [List.map_cons]
      cases hvalue : s.value? v with
      | none => exact (List.filterMap_cons_none hvalue ▸ ih).cons _
      | some w =>
          have heq := (Store.value?_eq_some_iff hs (hviews v (by simp))).mp hvalue a ha
          rw [List.filterMap_cons_some hvalue, heq]
          exact ih.cons_cons w

theorem tests (hs : s.Proper) (hviews : ∀ v ∈ views, v.Exact s) :
    Tests s (ask (isViolated views)) fun a => (views.map (View.eval a)).Nodup :=
  .ask fun h _ ha hnodup =>
    (hasRepeat_iff _).mp h (hnodup.sublist (sublist_value? hs hviews ha))

theorem checks_propagateFrom (hs : s.Proper) {before : List View}
    (hbefore : ∀ v ∈ before, FixedTo s a v) (hviews : ∀ v ∈ views, FixedTo s a v) :
    Checks s (propagateFrom before views) fun _ => (views.map (View.eval a)).Nodup := by
  induction views generalizing before with
  | nil => exact .pure (by simp)
  | cons v after ih =>
      have hv := hviews v (by simp)
      have hafter : ∀ w ∈ after, FixedTo s a w := fun w hw => hviews w (List.mem_cons_of_mem v hw)
      rw [propagateFrom_cons]
      have hvisit : ∀ w ∈ before ++ after,
          Checks s (w.remove (v.eval a)) fun _ => w.eval a ≠ v.eval a := fun w hw =>
        checks_remove hs ((List.mem_append.mp hw).elim (hbefore w) (hafter w)).pinned _
      refine (checks_whenFixed hs hv (.forM hvisit)).bind fun _ hne => ?_
      refine (ih (fun w hw => ?_) hafter).weaken fun _ hnodup => ?_
      · rcases List.mem_append.mp hw with hw | hw
        · exact hbefore w hw
        · exact List.mem_singleton.mp hw ▸ hv
      · rw [List.map_cons, List.nodup_cons]
        refine ⟨fun hmem => ?_, hnodup⟩
        obtain ⟨w, hw, heq⟩ := List.mem_map.mp hmem
        exact hne w (List.mem_append.mpr (.inr hw)) heq

theorem checks (hs : s.Proper) (hviews : ∀ v ∈ views, FixedTo s a v) :
    Checks s (propagate views) fun _ => (views.map (View.eval a)).Nodup :=
  checks_propagateFrom hs (by simp) hviews

end AllDifferent

end FiniteDomain.Engine
