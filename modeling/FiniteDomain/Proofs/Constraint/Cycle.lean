import FiniteDomain.Constraint.Evaluation
import Mathlib.Algebra.Order.Group.Nat
import Mathlib.Data.List.Chain
import Mathlib.Data.List.GetD
import Mathlib.Data.List.Nodup
import Mathlib.Logic.Function.Iterate

/-!
# Cycles through all nodes

A cycle through all nodes is found by following the successors from node 0: the nodes that are
met are all different, and the last of them is node 0.
-/

namespace FiniteDomain

variable {vs : List Int} {node m k j : Nat}

/-- The node after a node. -/
def successor (vs : List Int) (node : Nat) : Nat := (vs.getD node 0).toNat

/-- The nodes that are met from node 0, one for each successor. -/
def orbit (vs : List Int) : List Int :=
  (List.range vs.length).map fun k => ((successor vs)^[k + 1] 0 : Int)

/-- Every successor is a node. -/
def AreNodes (vs : List Int) : Prop := ∀ v ∈ vs, 0 ≤ v ∧ v < vs.length

/-- The start is met at the last step and not before, and all nodes on the way are in the cycle. -/
theorem closesCycle_iff {f : Nat → Nat} {inCycle : Nat → Bool} {start : Nat} :
    closesCycle f inCycle start m node = true ↔
      ∀ k < m, inCycle (f^[k + 1] node) = true ∧ (f^[k + 1] node = start ↔ k + 1 = m) := by
  induction m generalizing node with
  | zero => simp [closesCycle]
  | succ m ih =>
      simp only [closesCycle, Bool.and_eq_true, ih, beq_iff_eq, ← Function.iterate_succ_apply]
      have hfirst : ((f node == start) = (m == 0)) ↔ (f node = start ↔ 0 + 1 = m + 1) := by
        rw [Bool.eq_iff_iff, beq_iff_eq, beq_iff_eq]
        omega
      rw [hfirst]
      constructor
      · rintro ⟨hfirst, h⟩ k hk
        cases k with
        | zero => exact hfirst
        | succ k =>
            refine ⟨(h k (by omega)).1, ?_⟩
            rw [(h k (by omega)).2]
            omega
      · intro h
        refine ⟨h 0 (by omega), fun k hk => ⟨(h (k + 1) (by omega)).1, ?_⟩⟩
        rw [(h (k + 1) (by omega)).2]
        omega

/-- The successors are nodes, and the cycle is closed from the first of its nodes. -/
theorem isSingleCycle_iff_head {inCycle : Nat → Bool} :
    isSingleCycle vs inCycle = true ↔ AreNodes vs ∧
      ∀ start ∈ ((List.range vs.length).filter inCycle).head?,
        closesCycle (successor vs) inCycle start
          ((List.range vs.length).filter inCycle).length start = true := by
  have hnodes : (vs.any fun s => decide (s < 0) || decide ((vs.length : Int) ≤ s)) = false ↔
      AreNodes vs := by
    simp [AreNodes]
  simp only [isSingleCycle]
  split
  · next hany => simp [← hnodes, hany]
  · next hany =>
    rw [Bool.not_eq_true, hnodes] at hany
    cases (List.range vs.length).filter inCycle with
    | nil => simpa using hany
    | cons start rest =>
        simp only [hany, true_and, List.head?_cons, Option.mem_some_iff, forall_eq']
        exact Iff.rfl

theorem isSingleCycle_iff : isSingleCycle vs (fun _ => true) = true ↔
    AreNodes vs ∧ ∀ k < vs.length, (successor vs)^[k + 1] 0 = 0 ↔ k + 1 = vs.length := by
  rw [isSingleCycle_iff_head, List.filter_true, List.length_range]
  cases hn : vs.length with
  | zero => simp
  | succ n => simp [List.range_succ_eq_map, closesCycle_iff]

theorem successor_lt (h : AreNodes vs) (hnode : node < vs.length) :
    successor vs node < vs.length := by
  have := h _ (List.getElem_mem hnode)
  rw [successor, List.getD_eq_getElem _ _ hnode]
  omega

theorem iterate_lt (h : AreNodes vs) (hpos : 0 < vs.length) (k : Nat) :
    (successor vs)^[k] 0 < vs.length := by
  induction k with
  | zero => exact hpos
  | succ k ih =>
      rw [Function.iterate_succ_apply']
      exact successor_lt h ih

@[simp]
theorem length_orbit : (orbit vs).length = vs.length := by simp [orbit]

theorem getElem_orbit (hk : k < (orbit vs).length) :
    (orbit vs)[k] = ((successor vs)^[k + 1] 0 : Int) := by simp [orbit]

theorem mem_orbit (h : AreNodes vs) {v : Int} (hv : v ∈ orbit vs) : 0 ≤ v ∧ v < vs.length := by
  obtain ⟨k, hk, rfl⟩ := List.mem_map.mp hv
  have hpos : 0 < vs.length := Nat.zero_lt_of_lt (List.mem_range.mp hk)
  have := iterate_lt h hpos (k + 1)
  omega

/-- The value of a successor as an index. -/
theorem toNat_successor (h : AreNodes vs) (node : Nat) :
    (successor vs node : Int) = vs.getD node 0 := by
  rw [successor, Int.toNat_of_nonneg]
  by_cases hnode : node < vs.length
  · rw [List.getD_eq_getElem _ _ hnode]
    exact (h _ (List.getElem_mem hnode)).1
  · rw [List.getD_eq_default _ _ (not_lt.mp hnode)]

/-- Values that start with the first successor and follow the successors are those that are met. -/
theorem eq_orbit {os : List Int} (h : AreNodes vs) (hlength : os.length = vs.length)
    (hhead : os.head? = vs.head?)
    (hchain : os.IsChain fun x y => y = vs.getD x.toNat 0) : os = orbit vs := by
  have hget : ∀ k (hk : k < os.length), os[k] = ((successor vs)^[k + 1] 0 : Int) := by
    intro k
    induction k with
    | zero =>
        intro hk
        rw [List.head?_eq_getElem?, List.head?_eq_getElem?, List.getElem?_eq_getElem hk,
          List.getElem?_eq_getElem (hlength ▸ hk)] at hhead
        rw [Option.some.inj hhead, zero_add, Function.iterate_one, toNat_successor h,
          List.getD_eq_getElem _ _ (hlength ▸ hk)]
    | succ k ih =>
        intro hk
        rw [List.isChain_iff_getElem.mp hchain k hk, ih (by omega),
          Function.iterate_succ_apply' _ (k + 1), toNat_successor h, Int.toNat_natCast]
  apply List.ext_getElem (hlength.trans length_orbit.symm)
  intro k hk hk'
  rw [hget k hk, getElem_orbit]

theorem isChain_orbit (h : AreNodes vs) :
    (orbit vs).IsChain fun x y => y = vs.getD x.toNat 0 := by
  refine List.isChain_iff_getElem.mpr fun k hk => ?_
  rw [getElem_orbit, getElem_orbit, Function.iterate_succ_apply' _ (k + 1), toNat_successor h,
    Int.toNat_natCast]

theorem head?_orbit (h : AreNodes vs) : (orbit vs).head? = vs.head? := by
  cases hn : vs.length with
  | zero =>
      obtain rfl := List.length_eq_zero_iff.mp hn
      rfl
  | succ n =>
      rw [List.head?_eq_getElem?, List.head?_eq_getElem?,
        List.getElem?_eq_getElem (by simp [hn] : 0 < (orbit vs).length),
        List.getElem?_eq_getElem (by omega : 0 < vs.length), getElem_orbit, zero_add,
        Function.iterate_one, toNat_successor h, List.getD_eq_getElem]

theorem getLast?_orbit (hpos : 0 < vs.length) :
    (orbit vs).getLast? = some ((successor vs)^[vs.length] 0 : Int) := by
  rw [List.getLast?_eq_getElem?, List.getElem?_eq_getElem (by simp; omega), getElem_orbit,
    length_orbit, Nat.sub_add_cancel hpos]

/-- The nodes form one cycle if those that are met are all different and end with node 0. -/
theorem isSingleCycle_of_orbit (h : AreNodes vs) (hnodup : (orbit vs).Nodup)
    (hlast : ∀ v ∈ (orbit vs).getLast?, v = 0) : isSingleCycle vs (fun _ => true) = true := by
  refine isSingleCycle_iff.mpr ⟨h, fun k hk => ?_⟩
  have hend : (successor vs)^[vs.length] 0 = 0 := by
    have := hlast _ (getLast?_orbit (by omega))
    omega
  constructor
  · intro hzero
    have hlt : vs.length - 1 < (orbit vs).length := by simp; omega
    have hk' : k < (orbit vs).length := by simpa using hk
    have heq : (orbit vs)[k] = (orbit vs)[vs.length - 1] := by
      rw [getElem_orbit, getElem_orbit, hzero, Nat.sub_add_cancel (by omega), hend]
    have := (hnodup.getElem_inj_iff).mp heq
    omega
  · intro hk
    rwa [hk]

/-! ## The nodes of a cycle -/

section Cycle

variable (h : isSingleCycle vs (fun _ => true) = true)
include h

theorem iterate_length (hpos : 0 < vs.length) : (successor vs)^[vs.length] 0 = 0 := by
  have := ((isSingleCycle_iff.mp h).2 (vs.length - 1) (by omega)).mpr (by omega)
  rwa [Nat.sub_add_cancel hpos] at this

theorem getLast?_of_isSingleCycle : ∀ v ∈ (orbit vs).getLast?, v = 0 := by
  intro v hv
  cases hn : vs.length with
  | zero =>
      obtain rfl := List.length_eq_zero_iff.mp hn
      cases hv
  | succ n =>
      rw [getLast?_orbit (by omega), iterate_length h (by omega)] at hv
      exact (Option.some.inj hv).symm

/-- A node that is met twice would close the cycle too early. -/
theorem iterate_injective (hjk : j < k) (hk : k < vs.length) :
    (successor vs)^[j + 1] 0 ≠ (successor vs)^[k + 1] 0 := by
  intro heq
  have hend : (successor vs)^[vs.length - (k + 1) + (k + 1)] 0 = 0 := by
    rw [Nat.sub_add_cancel (by omega)]
    exact iterate_length h (by omega)
  rw [Function.iterate_add_apply, ← heq, ← Function.iterate_add_apply] at hend
  have := ((isSingleCycle_iff.mp h).2 (vs.length - (k + 1) + j) (by omega)).mp hend
  omega

theorem nodup_orbit : (orbit vs).Nodup := by
  refine List.pairwise_iff_getElem.mpr fun j k hj hk hjk heq => ?_
  rw [getElem_orbit, getElem_orbit] at heq
  exact iterate_injective h hjk (by simpa using hk) (by exact_mod_cast heq)

end Cycle

end FiniteDomain
