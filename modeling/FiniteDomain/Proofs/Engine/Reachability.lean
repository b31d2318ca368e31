import FiniteDomain.Proofs.Engine.Checkpoints
import Mathlib.Order.Bounds.Basic

/-!
# Reachable stores

A store is reachable if it comes from creating variables and from operations. Every value set of a
reachable store is proper, and so it stays when changes are taken back: each entry of the trail leads
to value sets that are proper again. Therefore a view, unless it leaves the 64-bit range, shows the
values of its variable as they are, and narrowing the view cuts exactly the unwanted values off.
-/

namespace FiniteDomain.Engine

/-! ## Value sets of the start -/

/-- The value sets with which variables are created: those of an interval and of listed values. -/
inductive ValueSet.Initial : ValueSet → Prop
  | interval {lower upper : Int} : lower ≤ upper → word32.Fits lower → word32.Fits upper →
      Initial (.interval lower upper)
  | listed {first : Int} {rest : List Int} : (first :: rest).Pairwise (· < ·) →
      (∀ w ∈ first :: rest, word32.Fits w) →
      Initial ⟨first, rest.getLastD first, some (first :: rest), []⟩

theorem ValueSet.Initial.proper {d : ValueSet} (h : d.Initial) : d.Proper := by
  cases h with
  | interval hle hl hu => exact proper_interval hle hl hu
  | @listed first rest hasc hfits =>
      have hlast := getLastD_mem_cons first rest
      have hle : ∀ w ∈ first :: rest, first ≤ w := fun w hw => by
        rcases List.mem_cons.mp hw with rfl | hw
        · exact le_rfl
        · exact (List.rel_of_pairwise_cons hasc hw).le
      refine ⟨?_, ?_, hfits first (by simp), hfits _ hlast, ?_⟩
      · exact mem_iff.mpr ⟨le_rfl, hle _ hlast, by simp, by simp⟩
      · exact mem_iff.mpr ⟨hle _ hlast, le_rfl, by rintro _ ⟨⟩; exact hlast, by simp⟩
      · rintro _ ⟨⟩
        exact hasc

/-- Whether they are consecutive or not, given values make a set of the start. -/
theorem ValueSet.initial_ofValues? {values : List Int} {d : ValueSet}
    (h : ofValues? values = some d) (hfits : ∀ w ∈ values, word32.Fits w) : d.Initial := by
  have hasc := pairwise_ascending values
  have hfits : ∀ w ∈ ascending values, word32.Fits w := fun w hw => hfits w (mem_ascending.mp hw)
  simp only [ofValues?] at h
  split at h
  · cases h
  next first rest heq =>
    rw [heq] at hasc hfits
    split at h
    · obtain rfl := Option.some.inj h
      have hlast := getLastD_mem_cons first rest
      exact .interval (le_getLastD hasc (by simp)) (hfits first (by simp)) (hfits _ hlast)
    · obtain rfl := Option.some.inj h
      exact .listed hasc hfits

/-! ## Proper on the way back -/

/-- The variable that is changed. -/
def Change.var : Change → VarIndex
  | .lower x _ => x
  | .upper x _ => x
  | .removal x _ => x

/-- What taking the change back does to the value set of its variable. -/
def Change.revert : Change → ValueSet → ValueSet
  | .lower _ old, d => { d with lower := old }
  | .upper _ old, d => { d with upper := old }
  | .removal _ value, d => { d with removed := d.removed.erase value }

namespace Store

open Narrowing

variable {s t : Store} {x : VarIndex} {d : ValueSet} {change : Change} {entries later : List Change}
  {domains : Array ValueSet} {v : View} {keep : Set Int} {base : Nat} {action : Narrowing Unit}

theorem undo_eq_modify (domains : Array ValueSet) (change : Change) :
    undo domains change = domains.modify change.var change.revert := by
  cases change <;> rfl

/-- A change of a variable that exists is taken back beside a further variable. -/
theorem undo_push (h : change.var < domains.size) (d : ValueSet) :
    undo (domains.push d) change = (undo domains change).push d := by
  simp only [undo_eq_modify]
  refine Array.ext (by simp) fun i hi _ => ?_
  simp only [Array.size_modify, Array.size_push] at hi
  rcases Nat.lt_succ_iff_lt_or_eq.mp hi with hi | rfl
  · simp [Array.getElem_modify, Array.getElem_push, hi]
  · simp [Array.getElem_modify, Array.getElem_push, h.ne]

/-- Only a variable that exists can lose values. -/
theorem Loss.var_lt (h : s.Loss x d change) : change.var < s.sets.size := by
  refine Nat.lt_of_not_le fun hvar => ?_
  have hsize : (s.sets.setIfInBounds x d).size = s.sets.size := Array.size_setIfInBounds
  have hsame : undo (s.sets.setIfInBounds x d) change = s.sets.setIfInBounds x d := by
    rw [undo_eq_modify]
    refine Array.ext (by simp) fun i _ hi => ?_
    rw [Array.getElem_modify, if_neg ((hi.trans_eq hsize).trans_le hvar).ne']
  obtain ⟨w, hw, hwd⟩ := h.lost
  refine hwd ?_
  have hset : (s.update x d change).set x = s.set x := by
    rw [set, update, ← hsame, h.undone, set]
  rw [set_update_self h.bound] at hset
  rwa [hset]

theorem proper_iff : s.Proper ↔ ∀ d ∈ s.sets, d.Proper := by
  constructor
  · intro h d hd
    obtain ⟨i, hi, rfl⟩ := Array.mem_iff_getElem.mp hd
    have := h i hi
    rwa [set, Array.getD_eq_getD_getElem?, Array.getElem?_eq_getElem hi] at this
  · intro h x hx
    rw [set, Array.getD_eq_getD_getElem?, Array.getElem?_eq_getElem hx]
    exact h _ (Array.getElem_mem hx)

/-- All value sets are proper, and they stay so while the entries are taken back one by one. -/
inductive Reverts : Array ValueSet → List Change → Prop
  | nil {domains : Array ValueSet} : (∀ d ∈ domains, d.Proper) → Reverts domains []
  | cons {domains : Array ValueSet} {change : Change} {entries : List Change} :
      (∀ d ∈ domains, d.Proper) → change.var < domains.size →
      Reverts (undo domains change) entries → Reverts domains (change :: entries)

namespace Reverts

theorem proper (h : Reverts domains entries) : ∀ d ∈ domains, d.Proper := by
  cases h with
  | nil hproper => exact hproper
  | cons hproper _ _ => exact hproper

theorem push (h : Reverts domains entries) (hd : d.Proper) : Reverts (domains.push d) entries := by
  have hpush : ∀ sets : Array ValueSet, (∀ c ∈ sets, c.Proper) → ∀ c ∈ sets.push d, c.Proper :=
    fun sets hsets c hc => (Array.mem_push.mp hc).elim (hsets c) fun hcd => hcd ▸ hd
  induction h with
  | nil hproper => exact .nil (hpush _ hproper)
  | cons hproper hvar _ ih =>
      refine .cons (hpush _ hproper) (Array.size_push d ▸ hvar.trans (Nat.lt_succ_self _)) ?_
      rw [undo_push hvar]
      exact ih

theorem foldl (h : Reverts domains (entries ++ later)) :
    Reverts (entries.foldl undo domains) later := by
  induction entries generalizing domains with
  | nil => exact h
  | cons change entries ih =>
      cases h with
      | cons _ _ h => exact ih h

end Reverts

/-- The value sets are proper at each checkpoint, and in between. -/
def Durable (s : Store) : Prop := Reverts s.sets s.trail.levels.flatten

theorem Durable.proper (h : s.Durable) : s.Proper := proper_iff.mpr (Reverts.proper h)

theorem Durable.addVariable (h : s.Durable) (hd : d.Proper) : (s.addVariable d).Durable :=
  Reverts.push h hd

theorem Durable.openCheckpoint (h : s.Durable) : s.openCheckpoint.Durable := h

theorem Durable.backtrack {k : Nat} (h : s.Durable) : (s.backtrack k).Durable := by
  rw [Durable, ← List.take_append_drop (s.trail.depth - k) s.trail.levels, List.flatten_append] at h
  exact h.foldl

theorem Durable.update (h : s.Durable) (hloss : s.Loss x d change) :
    (s.update x d change).Durable := by
  have hproper : ∀ c ∈ (s.update x d change).sets, c.Proper :=
    proper_iff.mp ((Narrows.single hloss).proper h.proper)
  have hcons : Reverts (s.sets.setIfInBounds x d) (change :: s.trail.levels.flatten) := by
    refine .cons hproper (by simpa using hloss.var_lt) ?_
    rw [hloss.undone]
    exact h
  cases hlevels : s.trail.levels with
  | nil =>
      have hnil : Reverts (s.sets.setIfInBounds x d) [] := .nil hproper
      simpa [Durable, Store.update, Trail.record, hlevels] using hnil
  | cons level outer => simpa [Durable, Store.update, Trail.record, hlevels] using hcons

theorem Durable.narrows (h : s.Durable) (hst : s.Narrows t) : t.Durable := by
  induction hst with
  | refl => exact h
  | lose _ hloss ih => exact ih.update hloss

/-- The narrowing of a view changes the store by losses, whether it fails or not. -/
theorem narrows_left (hs : s.Proper) (hv : v.Created s) (hop : v.Operation action) :
    s.Narrows (left (action s)) := by
  have hloses : Loses s True action fun _ => True := by
    cases hop with
    | atLeast bound => exact loses_atLeast hs hv bound
    | atMost bound => exact loses_atMost hs hv bound
    | remove value => exact loses_remove hs hv value
    | fix value => exact loses_fix hs hv value
  match action s, hloses s .refl with
  | .ok _ t, h => exact h.1
  | .error .conflict t, h => exact h
  | .error .overflow t, h => exact absurd trivial h

theorem Durable.evolves (h : s.Durable) (hst : Evolves base s t) : t.Durable := by
  induction hst with
  | refl => exact h
  | narrow _ hv hop ih => exact (ih h).narrows (narrows_left (ih h).proper hv hop)
  | openCheckpoint _ ih => exact (ih h).openCheckpoint
  | backtrack _ _ _ ih => exact (ih h).backtrack
  | takeModified _ ih => exact ih h
  | @trial _ _ t u _ htrial ih _ =>
      rw [restored_of_backtrack ((htrial.backtrack_eq le_rfl).2 t.depth (Nat.lt_succ_self _))]
      exact ih h

/-- The stores that arise from the empty one by creating variables and by operations. -/
inductive Reachable : Store → Prop
  | empty : Reachable {}
  | addVariable {s : Store} {d : ValueSet} : Reachable s → d.Initial → Reachable (s.addVariable d)
  | evolves {s t : Store} : Reachable s → Evolves 0 s t → Reachable t

theorem Reachable.durable (h : s.Reachable) : s.Durable := by
  induction h with
  | empty => exact .nil (by simp)
  | addVariable _ hd ih => exact ih.addVariable hd.proper
  | evolves _ hst ih => exact ih.evolves hst

/-! ## The values of a view -/

/-- The values that a view can still take, over the integers. -/
def values (s : Store) : View → Set Int
  | .constant c => {c}
  | .affine x negated offset => (View.affine x negated offset).raw '' {w | w ∈ s.set x}

/-- What a store tells about a view is true of the values of the view. -/
structure Describes (s : Store) (v : View) : Prop where
  isLeast : IsLeast (s.values v) (s.lowerBound v)
  isGreatest : IsGreatest (s.values v) (s.upperBound v)
  contains_iff : ∀ w, s.contains v w = true ↔ w ∈ s.values v

/-- The outcome of keeping only some values of a view: either these are left, and the other
variables are as before, or nothing would be left and the store is as before. -/
inductive Cuts (s : Store) (v : View) (keep : Set Int) : EStateM.Result Failure Store Unit → Prop
  | ok (t : Store) : t.values v = s.values v ∩ keep → (t.values v).Nonempty → t.Describes v →
      t.numVariables = s.numVariables → (∀ y, v.var? ≠ some y → t.set y = s.set y) →
      Cuts s v keep (.ok () t)
  | conflict : s.values v ∩ keep = ∅ → Cuts s v keep (.error .conflict s)

@[simp] theorem values_constant (s : Store) (c : Int) : s.values (.constant c) = {c} := rfl

theorem values_eq (hs : s.Proper) (hv : v.Exact s) (w : Int) :
    w ∈ s.values v ↔ ∃ a, s.Admits a ∧ v.eval a = w := by
  cases v with
  | constant c =>
      rw [values_constant, Set.mem_singleton_iff]
      exact ⟨fun h => ⟨s.least, admits_least hs, h.symm⟩, fun ⟨_, _, h⟩ => h.symm⟩
  | affine x negated offset =>
      constructor
      · rintro ⟨inner, hinner, rfl⟩
        exact ⟨_, admits_update_least hs hinner, by simp⟩
      · rintro ⟨a, ha, rfl⟩
        exact ⟨a x, ha x hv.1, by simp⟩

theorem values_nonempty (hs : s.Proper) (hv : v.Exact s) : (s.values v).Nonempty := by
  obtain ⟨a, ha, h⟩ := exists_eval_eq_lowerBound hs hv
  exact ⟨_, (values_eq hs hv _).mpr ⟨a, ha, rfl⟩⟩

theorem describes (hs : s.Proper) (hv : v.Exact s) : s.Describes v where
  isLeast := by
    refine ⟨(values_eq hs hv _).mpr (exists_eval_eq_lowerBound hs hv), fun w hw => ?_⟩
    obtain ⟨a, ha, rfl⟩ := (values_eq hs hv w).mp hw
    exact lowerBound_le_eval hs hv ha
  isGreatest := by
    refine ⟨(values_eq hs hv _).mpr (exists_eval_eq_upperBound hs hv), fun w hw => ?_⟩
    obtain ⟨a, ha, rfl⟩ := (values_eq hs hv w).mp hw
    exact eval_le_upperBound hs hv ha
  contains_iff := fun w => (contains_iff hs hv.created).trans (values_eq hs hv w).symm

/-- Narrowing the variable of a view cuts values off the view. -/
theorem Narrowed.cuts {negated : Bool} {offset : Int} {q : Int → Prop}
    {r : EStateM.Result Failure Store Unit} (h : s.Narrowed x q r) (hs : s.Proper)
    (hv : (View.affine x negated offset).Exact s)
    (hq : ∀ w, word32.Fits w → (q w ↔ (View.affine x negated offset).raw w ∈ keep)) :
    s.Cuts (.affine x negated offset) keep r := by
  have hkeep : ∀ w ∈ s.set x, (q w ↔ (View.affine x negated offset).raw w ∈ keep) := fun w hw =>
    hq w ((hs x hv.1).fits hw)
  cases h with
  | same hall =>
      refine .ok s ?_ (values_nonempty hs hv) (describes hs hv) rfl fun _ _ => rfl
      refine (Set.inter_eq_left.mpr ?_).symm
      rintro _ ⟨w, hw, rfl⟩
      exact (hkeep w hw).mp (hall w hw)
  | less d change hloss hd =>
      have hst := Narrows.single hloss
      have hs' := hst.proper hs
      have hv' := hv.mono hst.le
      refine .ok _ ?_ (values_nonempty hs' hv') (describes hs' hv') numVariables_update
        fun y hy => set_update_ne fun hyx => hy (hyx ▸ rfl)
      ext w
      simp only [values, set_update_self hloss.bound, Set.mem_inter_iff, Set.mem_image,
        Set.mem_ofPred_eq, hd]
      constructor
      · rintro ⟨inner, ⟨hinner, hqinner⟩, rfl⟩
        exact ⟨⟨inner, hinner, rfl⟩, (hkeep inner hinner).mp hqinner⟩
      · rintro ⟨⟨inner, hinner, rfl⟩, hin⟩
        exact ⟨inner, ⟨hinner, (hkeep inner hinner).mpr hin⟩, rfl⟩
  | conflict hnone =>
      refine .conflict (Set.eq_empty_iff_forall_notMem.mpr ?_)
      rintro _ ⟨⟨w, hw, rfl⟩, hin⟩
      exact hnone w hw ((hkeep w hw).mpr hin)

/-- A constant keeps its value, or is cut down to nothing. -/
theorem cuts_constant {c : Int} {p : Prop} [Decidable p] (hs : s.Proper) (hc : word64.Fits c)
    (hp : p ↔ c ∈ keep) :
    s.Cuts (.constant c) keep
      ((if p then pure () else throw .conflict : Narrowing Unit) s) := by
  have hv : (View.constant c).Exact s := hc
  split
  · next h =>
    refine .ok s ?_ (values_nonempty hs hv) (describes hs hv) rfl fun _ _ => rfl
    simpa using hp.mp h
  · next h => exact .conflict (by simpa using hp.not.mp h)

theorem cuts_atLeast (hs : s.Proper) (hv : v.Exact s) (bound : Int) :
    s.Cuts v {w | bound ≤ w} (v.atLeast bound s) := by
  match v, hv with
  | .constant c, hv => exact cuts_constant hs hv Iff.rfl
  | .affine x false offset, hv =>
    exact (narrowed_tightenLower hs hv.1 _).cuts hs hv fun w hw => View.unmap_le_iff hw
  | .affine x true offset, hv =>
    exact (narrowed_tightenUpper hs hv.1 _).cuts hs hv fun w hw => View.le_unmap_negated_iff hw

theorem cuts_atMost (hs : s.Proper) (hv : v.Exact s) (bound : Int) :
    s.Cuts v {w | w ≤ bound} (v.atMost bound s) := by
  match v, hv with
  | .constant c, hv => exact cuts_constant hs hv Iff.rfl
  | .affine x false offset, hv =>
    exact (narrowed_tightenUpper hs hv.1 _).cuts hs hv fun w hw => View.le_unmap_iff hw
  | .affine x true offset, hv =>
    exact (narrowed_tightenLower hs hv.1 _).cuts hs hv fun w hw => View.unmap_negated_le_iff hw

theorem cuts_remove (hs : s.Proper) (hv : v.Exact s) (value : Int) :
    s.Cuts v {value}ᶜ (v.remove value s) := by
  cases v with
  | constant c =>
      have hcuts : s.Cuts (.constant c) {value}ᶜ
          ((if c ≠ value then pure () else throw .conflict : Narrowing Unit) s) :=
        cuts_constant hs hv (by simp)
      rw [ite_not] at hcuts
      exact hcuts
  | affine x negated offset =>
      refine (narrowed_removeValue hs hv.1 _).cuts hs hv fun w hw => ?_
      exact not_congr (eq_comm.trans (View.unmap_eq_iff hw))

/-- In a reachable store no variable is without a value, and its bounds are values. What the store
tells about a view that does not leave the 64-bit range is true of the values of the view, and each
of the narrowings cuts off exactly the values that are too small, too large, or unwanted; it fails
if no value would be left, and then nothing has changed. -/
theorem reachable_view_operations (h : s.Reachable) :
    (∀ x < s.numVariables, (∃ w, w ∈ s.set x) ∧ (s.set x).lower ∈ s.set x ∧
      (s.set x).upper ∈ s.set x) ∧
    ∀ v : View, v.Exact s → s.Describes v ∧ ∀ bound : Int,
      s.Cuts v {w | bound ≤ w} (v.atLeast bound s) ∧ s.Cuts v {w | w ≤ bound} (v.atMost bound s) ∧
      s.Cuts v {bound}ᶜ (v.remove bound s) := by
  have hs := h.durable.proper
  refine ⟨fun x hx => ⟨⟨_, (hs x hx).lower_mem⟩, (hs x hx).lower_mem, (hs x hx).upper_mem⟩,
    fun v hv => ⟨describes hs hv, fun bound => ?_⟩⟩
  exact ⟨cuts_atLeast hs hv bound, cuts_atMost hs hv bound, cuts_remove hs hv bound⟩

/-- A variable with the values 1, 4 and 9, of which 4 is removed. -/
def ends : Store :=
  left ((View.ofVar 0).remove 4 (({} : Store).addVariable ⟨1, 9, some [1, 4, 9], []⟩))

/-- At least 3 on `10 - x` takes `x` from 9 past the missing 4 to 1. -/
theorem reachable_view_operations_ends :
    ends.Reachable ∧ (View.affine 0 true 10).Exact ends ∧
      ends.Cuts (.affine 0 true 10) {w | 3 ≤ w} ((View.affine 0 true 10).atLeast 3 ends) := by
  have hvalues : ValueSet.ofValues? [9, 1, 4] = some ⟨1, 9, some [1, 4, 9], []⟩ := rfl
  have hinitial := ValueSet.initial_ofValues? hvalues (by decide)
  have hcreated : (View.ofVar 0).Created (({} : Store).addVariable ⟨1, 9, some [1, 4, 9], []⟩) :=
    fun y hy => by
      cases hy
      decide
  have hreach : ends.Reachable :=
    .evolves (.addVariable .empty hinitial) (.narrow .refl hcreated (.remove 4))
  have hexact : (View.affine 0 true 10).Exact ends := by
    refine ⟨by decide, fun w hw => ?_⟩
    have hfits := (hreach.durable.proper 0 (by decide)).fits hw
    simp only [Word.Fits, word32, word64, View.raw_affine, if_true] at hfits ⊢
    omega
  exact ⟨hreach, hexact, (((reachable_view_operations hreach).2 _ hexact).2 3).1⟩

end Store

end FiniteDomain.Engine
