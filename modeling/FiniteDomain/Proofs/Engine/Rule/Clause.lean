import FiniteDomain.Engine.Rule.Clause
import FiniteDomain.Proofs.Engine.Narrowing

/-!
# Rules on truth values

Conjunctions, disjunctions and parities lose no valuation that satisfies them, and with all
literals fixed they check themselves.
-/

namespace FiniteDomain.Engine

open Narrowing

variable {s : Store} {needed : Valuation → Prop} {small : Prop} {literals : List View}
  {a : Valuation}

section

variable (hs : s.Proper) (hl : ∀ v ∈ literals, v.Created s)
include hs hl

theorem Conjunction.prunes (h : ∀ a, needed a → ∀ v ∈ literals, v.eval a ≠ 0) :
    Prunes s needed small (Conjunction.propagate literals) fun _ => True := by
  have hvisit : ∀ v ∈ literals, Prunes s needed small v.makeTrue fun _ => True :=
    fun v hv => prunes_remove hs (hl v hv) fun a ha => h a ha v hv
  exact (Obeys.forM hvisit).weaken fun _ _ => trivial

theorem Conjunction.tests :
    Tests s (ask (Conjunction.isViolated literals)) fun a => ∀ v ∈ literals, v.eval a ≠ 0 := by
  refine .ask fun h a ha hlit => ?_
  obtain ⟨v, hv, hfalse⟩ := List.any_eq_true.mp h
  exact hlit v hv ((Store.isFalse_iff hs (hl v hv)).mp hfalse a ha)

theorem Disjunction.prunes (h : ∀ a, needed a → ∃ v ∈ literals, v.eval a ≠ 0) :
    Prunes s needed small (Disjunction.propagate literals) fun _ => True := by
  refine Obeys.bind (p := fun _ => True) (.ask fun _ _ => trivial) fun satisfied _ => ?_
  split
  · exact .pure trivial
  refine Obeys.bind (p := fun rest => (∀ v ∈ rest, v.Created s) ∧
      ∀ a, needed a → ∃ v ∈ rest, v.eval a ≠ 0) (.ask fun t ht => ⟨?_, fun a ha => ?_⟩) ?_
  · exact fun v hv => hl v (List.mem_of_mem_filter hv)
  · obtain ⟨v, hv, hne⟩ := h a ha
    refine ⟨v, List.mem_filter.mpr ⟨hv, ?_⟩, hne⟩
    have hfalse := Store.isFalse_iff (ht.narrows.proper hs) ((hl v hv).mono ht.narrows.numVariables_eq.ge)
    simp only [Bool.not_eq_true', ← Bool.not_eq_true, hfalse]
    exact fun hzero => hne (hzero a (ht.admits a ha))
  · rintro rest ⟨hcreated, hrest⟩
    match rest with
    | [] => exact prunes_conflict fun a ha => by simpa using hrest a ha
    | [last] => exact prunes_remove hs (hcreated last (by simp)) fun a ha => by simpa using hrest a ha
    | _ :: _ :: _ => exact .pure trivial

theorem Disjunction.tests :
    Tests s (ask (Disjunction.isViolated literals)) fun a => ∃ v ∈ literals, v.eval a ≠ 0 := by
  refine .ask fun h a ha => ?_
  rintro ⟨v, hv, hne⟩
  exact hne ((Store.isFalse_iff hs (hl v hv)).mp (List.all_eq_true.mp h v hv) a ha)

end

section

variable (hs : s.Proper) (hl : ∀ v ∈ literals, Pinned s a v)
include hs hl

theorem Conjunction.checks :
    Checks s (Conjunction.propagate literals) fun _ => ∀ v ∈ literals, v.eval a ≠ 0 :=
  .forM fun v hv => checks_remove hs (hl v hv) 0

theorem Disjunction.checks :
    Checks s (Disjunction.propagate literals) fun _ => ∃ v ∈ literals, v.eval a ≠ 0 := by
  refine Obeys.bind (p := fun b => b = true → ∃ v ∈ literals, v.eval a ≠ 0)
    (.ask fun t ht h => ?_) fun satisfied hsatisfied => ?_
  · obtain ⟨v, hv, htrue⟩ := List.any_eq_true.mp h
    exact ⟨v, hv, ((hl v hv).isTrue_iff hs ht).mp htrue⟩
  split
  · next h => exact .pure (hsatisfied h)
  refine Obeys.bind (p := fun rest => ∀ v ∈ rest, v ∈ literals ∧ v.eval a ≠ 0)
    (.ask fun t ht v hv => ?_) fun rest hrest => ?_
  · obtain ⟨hv, hfalse⟩ := List.mem_filter.mp hv
    refine ⟨hv, fun hzero => ?_⟩
    simp [((hl v hv).isFalse_iff hs ht).mpr hzero] at hfalse
  · match rest with
    | [] => exact checks_conflict
    | [last] =>
      obtain ⟨hv, hne⟩ := hrest last (by simp)
      exact (checks_remove hs (hl last hv) 0).weaken fun _ _ => ⟨last, hv, hne⟩
    | v :: _ :: _ => exact .pure ⟨v, hrest v (by simp)⟩

end

/-! ## Parity -/

/-- The literals that are true under a valuation are those which the store knows to be true,
and some of the undecided ones. -/
theorem countP_eq_of_admits (hs : s.Proper) (hl : ∀ v ∈ literals, v.Created s) (ha : s.Admits a) :
    literals.countP (fun v => v.eval a != 0) =
      literals.countP s.isTrue + (s.undecided literals).countP fun v => v.eval a != 0 := by
  induction literals with
  | nil => rfl
  | cons v vs ih =>
      have ih := ih fun w hw => hl w (List.mem_cons_of_mem v hw)
      have htrue := Store.isTrue_iff hs (hl v (by simp))
      have hfalse := Store.isFalse_iff hs (hl v (by simp))
      simp only [Store.undecided] at ih ⊢
      by_cases h1 : s.isTrue v = true
      · have := htrue.mp h1 a ha
        simp [h1, this, ih]
        omega
      · by_cases h2 : s.isFalse v = true
        · have := hfalse.mp h2 a ha
          simp [h1, h2, this, ih]
        · simp [List.countP_cons, h1, h2, ih]
          omega

section

variable (hs : s.Proper) (hl : ∀ v ∈ literals, v.Created s)
include hs hl

theorem Parity.prunes
    (h : ∀ a, needed a → (literals.countP fun v => v.eval a != 0) % 2 = 1) :
    Prunes s needed small (Parity.propagate literals) fun _ => True := by
  refine Obeys.ask₂ (p := fun odd rest => (∀ v ∈ rest, v.Created s) ∧ ∀ a, needed a →
    ((rest.countP fun v => v.eval a != 0) % 2 = if odd then 0 else 1))
    (fun t ht => ⟨fun v hv => hl v (List.mem_of_mem_filter hv), fun a ha => ?_⟩) ?_
  · have hcount := countP_eq_of_admits (ht.narrows.proper hs)
      (fun v hv => (hl v hv).mono ht.narrows.numVariables_eq.ge) (ht.admits a ha)
    have := h a ha
    simp only [beq_iff_eq]
    split <;> omega
  · rintro odd rest ⟨hcreated, hrest⟩
    match rest with
    | [] =>
      cases odd
      · exact prunes_conflict fun a ha => by simpa using hrest a ha
      · exact .pure trivial
    | [last] =>
      have hlast := hcreated last (by simp)
      cases odd
      · refine prunes_remove hs hlast fun a ha hzero => ?_
        simpa [hzero] using hrest a ha
      · refine prunes_fix hs hlast fun a ha => ?_
        by_contra hne
        simpa [hne] using hrest a ha
    | _ :: _ :: _ => exact .pure trivial

theorem Parity.tests :
    Tests s (wouldFail (Parity.propagate literals)) fun a =>
      (literals.countP fun v => v.eval a != 0) % 2 = 1 :=
  .wouldFail (Parity.prunes (proper_trial hs) hl fun _ ha => ha.2)

end

theorem Parity.checks (hs : s.Proper) (hl : ∀ v ∈ literals, Pinned s a v) :
    Checks s (Parity.propagate literals) fun _ =>
      (literals.countP fun v => v.eval a != 0) % 2 = 1 := by
  refine Obeys.ask₂ (p := fun odd rest => rest = [] ∧
    (odd = true ↔ (literals.countP fun v => v.eval a != 0) % 2 = 1)) (fun t ht => ⟨?_, ?_⟩) ?_
  · simp only [Store.undecided, List.filter_eq_nil_iff, Bool.and_eq_true, Bool.not_eq_true',
      ← Bool.not_eq_true]
    intro v hv
    rw [(hl v hv).isTrue_iff hs ht, (hl v hv).isFalse_iff hs ht]
    tauto
  · have hcount : literals.countP t.isTrue = literals.countP fun v => v.eval a != 0 :=
      List.countP_congr fun v hv => by simp [(hl v hv).isTrue_iff hs ht]
    simp [hcount]
  · rintro odd rest ⟨rfl, hodd⟩
    cases odd
    · exact checks_conflict
    · exact .pure (hodd.mp rfl)

end FiniteDomain.Engine
