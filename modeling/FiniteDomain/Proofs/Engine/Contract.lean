import FiniteDomain.Proofs.Engine.Propagators

/-!
# The contract of a propagator

The search asks three things of a propagator. It loses no value of a valuation under which its
constraint holds; it fails only if the store admits no such valuation; and once its views are
fixed it succeeds exactly if their values satisfy the constraint. Every propagator over exact
views keeps all three, with the exception of a linear equality whose terms are so large that
128 bits do not hold their sums.
-/

namespace FiniteDomain.Engine

open Narrowing

variable {s t : Store} {p : Propagator} {a : Valuation}

/-- A view of which the store leaves one value only. -/
theorem fixedTo_of_isFixed {v : View} (hs : s.Proper) (hv : v.Exact s)
    (hfixed : s.isFixed v = true) (ha : s.Admits a) : FixedTo s a v where
  exact := hv
  eval_eq b hb := by
    have h := (Store.isFixed_iff hs hv).mp hfixed
    rw [h b hb, h a ha]

namespace Propagator

/-- What the search asks of the propagator when it runs on the store. -/
structure Contract (p : Propagator) (s : Store) : Prop where
  /-- Values are only lost, and none that a valuation has under which the constraint holds. -/
  spares : ∀ t, p.propagate s = .ok () t →
    t ≤ s ∧ ∀ a, s.Admits a → p.Holds a → t.Admits a
  /-- A failure is a conflict: the store admits no valuation under which the constraint holds. -/
  refuses : ∀ failure t, p.propagate s = .error failure t →
    failure = .conflict ∧ ∀ a, s.Admits a → ¬ p.Holds a
  /-- With all views fixed the outcome tells whether their values satisfy the constraint. -/
  decides : (∀ v ∈ p.views, s.isFixed v = true) → ∀ a, s.Admits a →
    ((∃ t, p.propagate s = .ok () t) ↔ p.Holds a)

theorem refuses_of_prunes (hs : s.Proper) (hp : p.Exact s) (hsmall : p.Small s)
    {failure : Failure} (h : p.propagate s = .error failure t) :
    failure = .conflict ∧ ∀ a, s.Admits a → ¬ p.Holds a := by
  have hprunes := Propagator.prunes hs hp s ⟨.refl, fun a ha => ha.1⟩
  rw [h] at hprunes
  cases failure with
  | conflict => exact ⟨rfl, fun a ha hholds => hprunes.2 a ⟨ha, hsmall, hholds⟩⟩
  | overflow => exact absurd hsmall hprunes

/-- Every propagator keeps the contract on every store, whatever variables its views share. -/
theorem propagate_keeps_contract (hs : s.Proper) (hp : p.Exact s) (hsmall : p.Small s) :
    p.Contract s where
  spares t ht := by
    have hprunes := Propagator.prunes hs hp s ⟨.refl, fun a ha => ha.1⟩
    rw [ht] at hprunes
    exact ⟨hprunes.1.narrows.le, fun a ha hholds => hprunes.1.admits a ⟨ha, hsmall, hholds⟩⟩
  refuses failure t ht := refuses_of_prunes hs hp hsmall ht
  decides hfixed a ha := by
    have hviews : ∀ v ∈ p.views, FixedTo s a v := fun v hv =>
      fixedTo_of_isFixed hs (hp v hv) (hfixed v hv) ha
    constructor
    · rintro ⟨t, ht⟩
      have hchecks := Propagator.checks hs hviews ha s .refl
      rw [ht] at hchecks
      exact (accepts_iff_holds hs hp ha hsmall).mp hchecks.2
    · intro hholds
      cases hr : p.propagate s with
      | ok _ t => exact ⟨t, rfl⟩
      | error failure t => exact absurd hholds ((refuses_of_prunes hs hp hsmall hr).2 a ha)

/-- If the Boolean `x1` is true, then `3 * x0 - 2 * (5 - x0) = 0`. -/
def guardedBalance : Propagator where
  rule := .linear [(3, .ofVar 0), (-2, .affine 0 true 5)] 0
  condition := some (.ofVar 1)

/-- The number 2 and the Boolean true. -/
def settledStore : Store where
  sets := #[.interval 2 2, .interval 1 1]

/-- The number 2 satisfies the guarded equality, both of whose terms read it. -/
theorem propagate_keeps_contract_guardedBalance :
    ∃ t, guardedBalance.propagate settledStore = .ok () t := by
  have hs : settledStore.Proper := by
    intro x hx
    match x, hx with
    | 0, _ => exact ValueSet.proper_interval (by decide) (by decide) (by decide)
    | 1, _ => exact ValueSet.proper_interval (by decide) (by decide) (by decide)
  have hp : guardedBalance.Exact settledStore := by
    intro v hv
    have hv : v ∈ [.ofVar 0, .affine 0 true 5, .ofVar 1] := hv
    simp only [List.mem_cons, List.not_mem_nil, or_false] at hv
    rcases hv with rfl | rfl | rfl
    · exact View.exact_ofVar hs (by decide)
    · refine ⟨by decide, fun w hw => ?_⟩
      have hw : 2 ≤ w ∧ w ≤ 2 := ValueSet.mem_interval.mp hw
      simp only [View.raw_affine, if_true, Word.Fits, word64]
      omega
    · exact View.exact_ofVar hs (by decide)
  have hsmall : guardedBalance.Small settledStore := ⟨by decide, by decide, by decide⟩
  exact ((propagate_keeps_contract hs hp hsmall).decides (by decide) (fun x => 2 - x)
    (by decide)).mpr (by decide)

end Propagator

end FiniteDomain.Engine
