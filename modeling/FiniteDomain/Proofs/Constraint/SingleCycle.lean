import FiniteDomain.Proofs.Constraint.Cycle
import FiniteDomain.Proofs.Constraint.Evaluation
import Mathlib.Dynamics.PeriodicPts.Defs
import Mathlib.GroupTheory.Perm.Cycle.Basic

/-!
# Single cycles

Circuits are checked by following the successors from one member for as many steps as there are
members, without a record of the nodes on the way. If the start is met at the last step and not
before, the steps lead to as many different nodes as there are members. All of them are members, so
every member is met: the successors permute the members in one cycle. A path that runs into a
smaller cycle does not come back to the start, and a cycle that leaves members out comes back too
early.
-/

namespace FiniteDomain

section Returns

variable {α : Type} {f : α → α} {S : Finset α} {s : α}

/-- Following the function from the start, all points are members, and the start is met after as
many steps as there are members and not before. -/
def Returns (f : α → α) (S : Finset α) (s : α) : Prop :=
  ∀ k < S.card, f^[k + 1] s ∈ S ∧ (f^[k + 1] s = s ↔ k + 1 = S.card)

theorem Returns.minimalPeriod_eq (h : Returns f S s) (hs : s ∈ S) :
    Function.minimalPeriod f s = S.card := by
  have hpos : 0 < S.card := Finset.card_pos.mpr ⟨s, hs⟩
  have hperiodic : Function.IsPeriodicPt f S.card s := by
    have := (h (S.card - 1) (by omega)).2.mpr (by omega)
    rwa [Nat.sub_add_cancel hpos] at this
  have hle := hperiodic.minimalPeriod_le hpos
  have hperiod := hperiodic.minimalPeriod_pos hpos
  have hmet := (h (Function.minimalPeriod f s - 1) (by omega)).2
  rw [Nat.sub_add_cancel hperiod] at hmet
  exact hmet.mp (Function.isPeriodicPt_minimalPeriod f s)

/-- Every member is met. -/
theorem Returns.exists_iterate_eq (h : Returns f S s) (hs : s ∈ S) {a : α} (ha : a ∈ S) :
    ∃ k < S.card, f^[k] s = a := by
  classical
  have hmem : (Finset.range S.card).image (fun k => f^[k] s) ⊆ S := by
    intro b hb
    obtain ⟨k, hk, rfl⟩ := Finset.mem_image.mp hb
    rw [Finset.mem_range] at hk
    cases k with
    | zero => exact hs
    | succ k => exact (h k (by omega)).1
  have hinj : Set.InjOn (fun k => f^[k] s) (Finset.range S.card) := by
    have := Function.iterate_injOn_Iio_minimalPeriod (f := f) (x := s)
    rw [h.minimalPeriod_eq hs] at this
    simpa using this
  have himage := Finset.eq_of_subset_of_card_le hmem (by
    rw [Finset.card_image_of_injOn hinj, Finset.card_range])
  rw [← himage] at ha
  obtain ⟨k, hk, hka⟩ := Finset.mem_image.mp ha
  exact ⟨k, Finset.mem_range.mp hk, hka⟩

/-- A member is met after at least one step: the start at the last one. -/
theorem Returns.exists_predecessor (h : Returns f S s) (hs : s ∈ S) {a : α} (ha : a ∈ S) :
    ∃ b, f b = a := by
  have hpos : 0 < S.card := Finset.card_pos.mpr ⟨s, hs⟩
  obtain ⟨k, hk, rfl⟩ := h.exists_iterate_eq hs ha
  cases k with
  | zero =>
      refine ⟨f^[S.card - 1] s, ?_⟩
      rw [← Function.iterate_succ_apply' f]
      exact (h (S.card - 1) (by omega)).2.mpr (by omega)
  | succ k => exact ⟨f^[k] s, (Function.iterate_succ_apply' f k s).symm⟩

theorem returns_of_isCycleOn {π : Equiv.Perm α} (hs : s ∈ S) (hcycle : π.IsCycleOn S) :
    Returns π S s := by
  intro k hk
  refine ⟨hcycle.1.mapsTo.iterate (k + 1) hs, ?_⟩
  rw [← Equiv.Perm.coe_pow, hcycle.pow_apply_eq hs]
  constructor
  · intro hdvd
    have := Nat.le_of_dvd k.succ_pos hdvd
    omega
  · exact fun heq => heq ▸ dvd_rfl

theorem Returns.isCycleOn {π : Equiv.Perm α} (h : Returns π S s) (hs : s ∈ S)
    (hout : ∀ a ∉ S, π a = a) : π.IsCycleOn S := by
  refine ⟨⟨fun a ha => ?_, π.injective.injOn, fun a ha => ?_⟩, ?_⟩
  · obtain ⟨k, hk, rfl⟩ := h.exists_iterate_eq hs ha
    rw [← Function.iterate_succ_apply' π]
    exact (h k hk).1
  · obtain ⟨b, rfl⟩ := π.surjective a
    refine ⟨b, ?_, rfl⟩
    by_contra hb
    rw [hout b hb] at ha
    exact hb ha
  · have hsame : ∀ a ∈ S, π.SameCycle s a := by
      intro a ha
      obtain ⟨k, -, rfl⟩ := h.exists_iterate_eq hs ha
      refine ⟨k, ?_⟩
      rw [zpow_natCast, Equiv.Perm.coe_pow]
    exact fun a ha b hb => (hsame a ha).symm.trans (hsame b hb)

variable [Fintype α]

/-- A function that moves members only returns to a member if and only if it permutes the members
in one cycle. -/
theorem returns_iff (hs : s ∈ S) (hout : ∀ a ∉ S, f a = a) :
    Returns f S s ↔ ∃ π : Equiv.Perm α, ⇑π = f ∧ π.IsCycleOn S := by
  constructor
  · intro h
    have hsurj : Function.Surjective f := by
      intro a
      by_cases ha : a ∈ S
      · exact h.exists_predecessor hs ha
      · exact ⟨a, hout a ha⟩
    have hbij : Function.Bijective f := ⟨Finite.injective_iff_surjective.mpr hsurj, hsurj⟩
    let π : Equiv.Perm α := Equiv.ofBijective f hbij
    have hπ : Returns π S s := h
    exact ⟨π, rfl, hπ.isCycleOn hs hout⟩
  · rintro ⟨π, rfl, hcycle⟩
    exact returns_of_isCycleOn hs hcycle

end Returns

variable {vs : List Int} {inCycle : Nat → Bool} {σ : Assignment} {successors : List Expr}

/-- The permutation takes every node to its successor. -/
def Permutes (vs : List Int) (π : Equiv.Perm (Fin vs.length)) : Prop :=
  ∀ i : Fin vs.length, vs[i] = ((π i : Nat) : Int)

/-- The node after a node, among the nodes. -/
def nextNode (h : AreNodes vs) (i : Fin vs.length) : Fin vs.length :=
  ⟨successor vs i, successor_lt h i.2⟩

theorem val_iterate_nextNode (h : AreNodes vs) (i : Fin vs.length) (k : Nat) :
    ((nextNode h)^[k] i : Nat) = (successor vs)^[k] i := by
  induction k with
  | zero => rfl
  | succ k ih => rw [Function.iterate_succ_apply', Function.iterate_succ_apply', ← ih, nextNode]

theorem getElem_eq_nextNode (h : AreNodes vs) (i : Fin vs.length) :
    vs[i] = ((nextNode h i : Nat) : Int) := by
  rw [nextNode, toNat_successor h, List.getD_eq_getElem _ _ i.2]
  rfl

theorem permutes_iff (h : AreNodes vs) (π : Equiv.Perm (Fin vs.length)) :
    Permutes vs π ↔ ⇑π = nextNode h := by
  rw [funext_iff]
  refine forall_congr' fun i => ?_
  rw [getElem_eq_nextNode h, Int.ofNat_inj, Fin.val_inj, eq_comm]

theorem Permutes.areNodes {π : Equiv.Perm (Fin vs.length)} (h : Permutes vs π) : AreNodes vs := by
  intro v hv
  obtain ⟨i, hi, rfl⟩ := List.getElem_of_mem hv
  have hvalue := h ⟨i, hi⟩
  have hlt := (π ⟨i, hi⟩).2
  simp only [Fin.getElem_fin] at hvalue
  omega

/-- The nodes in the cycle. -/
def members (vs : List Int) (inCycle : Nat → Bool) : Finset (Fin vs.length) :=
  Finset.univ.filter fun i => inCycle i = true

theorem card_members (vs : List Int) (inCycle : Nat → Bool) :
    (members vs inCycle).card = ((List.range vs.length).filter inCycle).length := by
  rw [members, Fin.univ_def, Finset.card_def, Finset.filter_val, Multiset.filter_coe,
    Multiset.coe_card, ← List.map_coe_finRange_eq_range, List.filter_map, List.length_map]
  simp [Function.comp_def]

theorem mem_members {i : Fin vs.length} : i ∈ members vs inCycle ↔ inCycle i = true := by
  simp [members]

/-- The check follows the nodes up to the first return to the start. -/
theorem closesCycle_iff_returns (h : AreNodes vs) (start : Fin vs.length) :
    closesCycle (successor vs) inCycle start ((List.range vs.length).filter inCycle).length start =
      true ↔ Returns (nextNode h) (members vs inCycle) start := by
  simp only [closesCycle_iff, Returns, card_members, mem_members, ← val_iterate_nextNode h,
    Fin.val_inj]

/-- The check succeeds if and only if the successors permute the nodes in the cycle in one cycle, as
far as the other nodes are their own successors. -/
theorem isSingleCycle_iff_isCycleOn
    (hout : ∀ i : Fin vs.length, inCycle i = false → vs[i] = (i : Nat)) :
    isSingleCycle vs inCycle = true ↔ ∃ π : Equiv.Perm (Fin vs.length), Permutes vs π ∧
      π.IsCycleOn {i | inCycle i = true} := by
  have hset : {i : Fin vs.length | inCycle i = true} = members vs inCycle := by
    ext i
    simp [mem_members]
  rw [isSingleCycle_iff_head, hset]
  cases hlist : (List.range vs.length).filter inCycle with
  | nil =>
      have hempty : ∀ i : Fin vs.length, inCycle i = false := fun i =>
        Bool.eq_false_iff.mpr (List.filter_eq_nil_iff.mp hlist i (List.mem_range.mpr i.2))
      have hperm : Permutes vs 1 := fun i => hout i (hempty i)
      have hmembers : (members vs inCycle : Set (Fin vs.length)) = ∅ := by
        rw [← hset]
        simp [hempty]
      simp only [List.head?_nil, Option.not_mem_none, false_imp_iff, implies_true, and_true,
        hmembers]
      exact ⟨fun _ => ⟨1, hperm, Equiv.Perm.isCycleOn_empty⟩, fun _ => hperm.areNodes⟩
  | cons start rest =>
      obtain ⟨hrange, hstart⟩ := List.mem_filter.mp (hlist ▸ List.mem_cons_self)
      obtain ⟨i, rfl⟩ : ∃ i : Fin vs.length, (i : Nat) = start :=
        ⟨⟨start, List.mem_range.mp hrange⟩, rfl⟩
      have hcloses : ∀ h : AreNodes vs,
          closesCycle (successor vs) inCycle i (i :: rest : List Nat).length i = true ↔
            ∃ π : Equiv.Perm (Fin vs.length), Permutes vs π ∧ π.IsCycleOn (members vs inCycle) := by
        intro h
        rw [← hlist, closesCycle_iff_returns h]
        simp only [permutes_iff h]
        refine returns_iff (mem_members.mpr hstart) fun j hj => Fin.val_inj.mp ?_
        rw [mem_members, Bool.not_eq_true] at hj
        exact Int.ofNat_inj.mp ((getElem_eq_nextNode h j).symm.trans (hout j hj))
      simp only [List.head?_cons, Option.mem_some_iff, forall_eq']
      constructor
      · exact fun ⟨h, hclosed⟩ => (hcloses h).mp hclosed
      · rintro ⟨π, hperm, hcycle⟩
        exact ⟨hperm.areNodes, (hcloses hperm.areNodes).mpr ⟨π, hperm, hcycle⟩⟩

/-- No two nodes of a cycle through all nodes have the same successor. -/
theorem nodup_of_isSingleCycle (h : isSingleCycle vs (fun _ => true) = true) : vs.Nodup := by
  obtain ⟨π, hperm, -⟩ := (isSingleCycle_iff_isCycleOn (by simp)).mp h
  refine List.nodup_iff_injective_get.mpr fun i j hij => π.injective (Fin.val_inj.mp ?_)
  have hi : vs.get i = ((π i : Nat) : Int) := hperm i
  have hj : vs.get j = ((π j : Nat) : Int) := hperm j
  omega

/-- Circuits are evaluated to whether the values permute all nodes in one cycle, and subcircuits to
whether they permute the nodes that are not their own successors in one cycle. -/
theorem circuits_are_cycles (hvs : Expr.Values σ successors vs) :
    ∃ b c, (Constraint.global (.circuit successors)).evaluate σ = .ok b ∧
      (Constraint.global (.subcircuit successors)).evaluate σ = .ok c ∧
      (b = true ↔ ∃ π : Equiv.Perm (Fin vs.length),
        Permutes vs π ∧ π.IsCycleOn Set.univ) ∧
      (c = true ↔ ∃ π : Equiv.Perm (Fin vs.length),
        Permutes vs π ∧ π.IsCycleOn {i | π i ≠ i}) := by
  refine ⟨_, _, Constraint.evaluate_global_iff.mpr ⟨vs, hvs, rfl⟩,
    Constraint.evaluate_global_iff.mpr ⟨vs, hvs, rfl⟩, ?_, ?_⟩
  · refine (isSingleCycle_iff_isCycleOn (by simp)).trans ?_
    simp
  · refine (isSingleCycle_iff_isCycleOn fun i hi => ?_).trans ?_
    · simpa [List.getD_eq_getElem _ _ i.2] using hi
    · refine exists_congr fun π => and_congr_right fun hperm => ?_
      have hset : {i : Fin vs.length | (vs.getD i 0 != (i : Nat)) = true} = {i | π i ≠ i} := by
        ext i
        have hvalue := hperm i
        simp only [Fin.getElem_fin] at hvalue
        simp [hvalue, Fin.ext_iff]
      rw [hset]

/-- Three of four nodes form a cycle, and node 1 is its own successor. -/
def threeOfFour : List Int := [2, 1, 3, 0]

/-- The cycle of three nodes is a subcircuit, and no circuit. -/
theorem circuits_are_cycles_threeOfFour :
    (¬ ∃ π : Equiv.Perm (Fin threeOfFour.length),
      Permutes threeOfFour π ∧ π.IsCycleOn Set.univ) ∧
      ∃ π : Equiv.Perm (Fin threeOfFour.length),
        Permutes threeOfFour π ∧ π.IsCycleOn {i | π i ≠ i} := by
  have hvs : Expr.Values (fun _ => none) (threeOfFour.map .constant) threeOfFour :=
    List.forall₂_map_left_iff.mpr (List.forall₂_same.mpr fun _ _ => rfl)
  obtain ⟨b, c, hb, hc, hcircuit, hsubcircuit⟩ := circuits_are_cycles hvs
  obtain rfl : false = b := Except.ok.inj hb
  obtain rfl : true = c := Except.ok.inj hc
  exact ⟨fun h => absurd (hcircuit.mpr h) (by decide), hsubcircuit.mp rfl⟩

end FiniteDomain
