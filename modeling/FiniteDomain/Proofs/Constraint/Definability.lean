import FiniteDomain.Proofs.Constraint.Acceptance
import FiniteDomain.Proofs.Constraint.Preservation
import FiniteDomain.Proofs.Expr.Saturation

/-!
# Names that constrain nothing

A name for an expression is defined whether or not the expression is looked at. It does not
constrain the variables as long as the expression has a value that the name can take. Under a
condition only expressions that are definable anywhere are named: total ones with bounds of 32
bits. All their values lie between the bounds, so the name can take them. They have a value unless
a result on the way overflows, and bounds that were moved into the 64-bit range do not tell: the
extremes of a sum may cancel when its terms do not.
-/

namespace FiniteDomain

open FiniteDomain.Expr (Traces ofInt)

variable {r : Registry} {σ : Assignment} {τ τ' : VarId → Int} {e name : Expr} {v : Int}
  {definitions : List Constraint} {next : VarId}

namespace Expr

/-! ## Expressions that can be named -/

/-- The expression needs no name, or has a value that its name can take. -/
def Nameable (σ : Assignment) (e : Expr) : Prop :=
  e.isAtom = true ∨ ∃ v, e.evaluate σ = .ok v ∧
    (Domain.clamped e.bounds.lower e.bounds.upper e.ordered_bounds).contains v = true

theorem Nameable.of_traces {σ' : Assignment} (h : e.Nameable σ) (htraces : Traces σ σ' e e) :
    e.Nameable σ' :=
  h.imp_right fun ⟨v, hv, hcontains⟩ => ⟨v, htraces v hv, hcontains⟩

/-- A nameable expression is named by an atom that takes over its value. -/
theorem makes_name (hknown : e.KnownTo r) (hτ : r.Respects τ) (h : e.Nameable (total τ)) :
    Makes r e.atomize fun p r' => p.1.isAtom = true ∧ p.1.KnownTo r' ∧
      (∀ scope, e.Plain scope → p.1.Plain scope) ∧
      ∃ τ', Fulfils r r' τ τ' p.2 ∧ Traces (total τ) (total τ') e p.1 := by
  rw [atomize]
  split
  · next hatom =>
    exact Makes.pure ⟨hatom, hknown, fun _ h => h, τ, Fulfils.refl hτ, fun _ hv => hv⟩
  · next hatom =>
    refine makes_auxiliary.bind fun p r' _ hp => ?_
    obtain ⟨rfl, rfl⟩ := hp
    obtain ⟨v, hv, hcontains⟩ := h.resolve_left hatom
    have hagree := agree_update r.next τ v
    have hknows : (ofInt (e.auxiliaryVar r.next)).KnownTo
        (r.extend (.int (e.auxiliaryVar r.next))) :=
      knownTo_ofInt (Registry.knows_extend rfl)
    have hname : (ofInt (e.auxiliaryVar r.next)).evaluate (total (Function.update τ r.next v)) =
        .ok v := congrArg Except.ok (Function.update_self ..)
    refine Makes.pure ⟨rfl, hknows, fun _ _ => plain_ofInt _, _, ⟨hagree, ?_, ?_, ?_⟩,
      fun w hw => ?_⟩
    · exact Registry.respects_extend hτ hcontains
    · exact List.forall_mem_singleton.mpr
        (Constraint.knownTo_comparison_iff.mpr ⟨hknown.mono (r.le_extend _), hknows⟩)
    · exact List.forall_mem_singleton.mpr (Constraint.evaluate_eq_iff.mpr
        ⟨v, v, hknown.traces hagree v hv, hname, decide_eq_true rfl⟩)
    · rw [← Except.ok.inj (hv.symm.trans hw)]
      exact hname

/-- A name and its definition are about the variables of the expression and a new one. -/
theorem mem_occurrences_of_atomize {n : VarId}
    (h : e.atomize.run n = ((name, definitions), next)) :
    (∀ x ∈ name.occurrences, n ≤ x.id ∨ x ∈ e.occurrences) ∧
      ∀ d ∈ definitions, ∀ x ∈ d.occurrences, n ≤ x.id ∨ x ∈ e.occurrences := by
  rw [atomize] at h
  split at h
  · cases h
    exact ⟨fun x hx => .inr hx, by simp⟩
  · cases h
    have hname : ∀ x ∈ (ofInt (e.auxiliaryVar n)).occurrences, n ≤ x.id ∨ x ∈ e.occurrences :=
      List.forall_mem_singleton.mpr (.inl le_rfl)
    refine ⟨hname, List.forall_mem_singleton.mpr (List.forall_mem_append.mpr ⟨?_, hname⟩)⟩
    exact fun x hx => .inr hx

/-! ## Definable expressions -/

/-- The values of a definable expression lie between its bounds. -/
theorem holds_bounds_of_definable (hdefinable : e.isDefinableAnywhere = true)
    (hσ : σ.Assigns e.occurrences) (hv : e.evaluate σ = .ok v) : e.bounds.Holds v := by
  refine holds_bounds hσ.inside ?_ hv
  rcases isDefinableAnywhere_iff.mp hdefinable with hatom | ⟨htotal, -⟩
  · exact everywhere_of_isAtom hatom (not_escapes_of_isAtom hatom)
  · exact everywhere_not_escapes htotal

/-- A definable expression with a value can be named. -/
theorem nameable_of_definable (hdefinable : e.isDefinableAnywhere = true)
    (hσ : σ.Assigns e.occurrences) (hv : e.evaluate σ = .ok v) : e.Nameable σ := by
  obtain ⟨hl, hu⟩ := holds_bounds_of_definable hdefinable hσ hv
  rcases isDefinableAnywhere_iff.mp hdefinable with hatom | ⟨-, hlower, hupper⟩
  · exact .inl hatom
  · exact .inr ⟨v, hv, Domain.contains_clamped ⟨hlower.1.trans hl, hu.trans hupper.2⟩ hl hu⟩

/-- Unless its bounds saturate, a definable expression has a value. -/
theorem exists_value_of_definable (hdefinable : e.isDefinableAnywhere = true)
    (hwords : e.Everywhere IsWord) (hσ : σ.Assigns e.occurrences) (h : e.Unsaturated) :
    ∃ v, e.evaluate σ = .ok v := by
  have htotal : e.isTotal = true := by
    rcases isDefinableAnywhere_iff.mp hdefinable with hatom | ⟨htotal, -⟩
    · obtain ⟨a, rfl⟩ := isAtom_iff.mp hatom
      rfl
    · exact htotal
  obtain ⟨v, hv, -⟩ := hasValueIn_of_boundsWith htotal hwords hσ h
  exact ⟨v, hv⟩

/-- A definable expression has a value for all values of the variables in their domains, unless its
bounds saturate. Its values lie between the bounds, and where there is one the definition of the
name does not constrain the variables that are there: the name has a value of its domain under
which the definition is true. -/
theorem definable_anywhere (hdefinable : e.isDefinableAnywhere = true)
    (hwords : e.Everywhere IsWord) (hknown : e.KnownTo r) (hσ : σ.Assigns e.occurrences)
    (hname : e.atomize.run r.next = ((name, definitions), next)) :
    (e.Unsaturated → ∃ v, e.evaluate σ = .ok v) ∧
      ∀ v, e.evaluate σ = .ok v → e.bounds.Holds v ∧
        ∃ σ' : Assignment, (∀ id < r.next, σ' id = σ id) ∧ σ'.Covers definitions ∧
          (∀ d ∈ definitions, d.evaluate σ' = .ok true) ∧ name.evaluate σ' = .ok v := by
  refine ⟨exists_value_of_definable hdefinable hwords hσ, fun v hv => ?_⟩
  refine ⟨holds_bounds_of_definable hdefinable hσ hv, ?_⟩
  have hcomplete := hσ.total_complete hknown
  have htraces : Traces σ (total (r.complete σ)) e e :=
    traces_self fun x hx w hw => (hcomplete x hx).trans hw
  obtain ⟨r', -, -, -, -, -, τ', hfulfils, hvalue⟩ := makes_name hknown (r.respects_complete σ)
    ((nameable_of_definable hdefinable hσ hv).of_traces htraces)
  have hresult : e.atomize r.next = ((name, definitions), next) := hname
  rw [hresult] at hfulfils hvalue
  obtain ⟨hnew, hnews⟩ := mem_occurrences_of_atomize hname
  obtain ⟨hcovers, htrue⟩ := hfulfils.extended fun d hd x hx =>
    (hnews d hd x hx).imp_right (hcomplete x)
  refine ⟨_, fun id hid => Assignment.extended_of_lt hid, hcovers, htrue, ?_⟩
  refine traces_self (fun x hx w hw => ?_) v (hvalue v (htraces v hv))
  exact (extended_eq hfulfils.agree ((hnew x hx).imp_right (hcomplete x))).trans hw

/-- How far three times a digit is from 7. -/
def tripleDistance : Expr :=
  .unary .abs (.binary .sub (.binary .mul (.ofInt (digit 0)) (.constant 3)) (.constant 7))

/-- The distance is 4 for the digit 1, and a name for it has that value. -/
theorem definable_anywhere_tripleDistance : ∃ (name : Expr) (d : Constraint) (next : VarId)
    (σ : Assignment), tripleDistance.atomize.run 1 = ((name, [d]), next) ∧ σ 0 = some 1 ∧
      d.evaluate σ = .ok true ∧ name.evaluate σ = .ok 4 := by
  have hvars : tripleDistance.occurrences = [.int (digit 0)] := rfl
  have hwords : tripleDistance.Everywhere IsWord := by
    simp [tripleDistance, Everywhere, parts, ofInt, constant, IsWord, Word.Fits, word64]
  have hknown : tripleDistance.KnownTo ⟨fun id => .int (digit id), 1⟩ := by
    rw [KnownTo, hvars]
    exact List.forall_mem_singleton.mpr ⟨by decide, rfl⟩
  have hσ : Assignment.Assigns (fun _ => some 1) tripleDistance.occurrences := by
    rw [hvars]
    exact List.forall_mem_singleton.mpr ⟨1, rfl, rfl⟩
  obtain ⟨hvalue, hnamed⟩ := definable_anywhere rfl hwords hknown hσ rfl
  have hunsaturated : tripleDistance.Unsaturated := by
    rw [Unsaturated]
    decide
  obtain ⟨v, hv⟩ := hvalue hunsaturated
  obtain rfl : v = 4 := Except.ok.inj (hv.symm.trans rfl)
  obtain ⟨-, σ', hagree, -, htrue, hname⟩ := hnamed 4 hv
  exact ⟨_, _, _, σ', rfl, hagree 0 (by decide), htrue _ List.mem_cons_self, hname⟩

/-- A number, added to the largest 64-bit value and that subtracted again. -/
def cancellingSum : Expr :=
  .sum [.constant word64.max, .ofInt ⟨0, "IV0", .interval 1 5 (by decide) (by decide)⟩,
    .constant (-word64.max)]

/-- The bounds of the sum cancel, but its terms overflow: the definition of its name excludes a
value of the variable. -/
theorem cancellingSum_excludes :
    cancellingSum.isDefinableAnywhere = true ∧ cancellingSum.Everywhere IsWord ∧
      Assignment.Assigns (fun _ => some 1) cancellingSum.occurrences ∧
      (∀ v, cancellingSum.evaluate (fun _ => some 1) ≠ .ok v) ∧
      ∃ d ∈ (cancellingSum.atomize.run 1).1.2, ∀ σ : Assignment, σ 0 = some 1 →
        d.evaluate σ ≠ .ok true := by
  have hvalue : ∀ σ : Assignment, σ 0 = some 1 → ∀ v, cancellingSum.evaluate σ ≠ .ok v := by
    intro σ hσ v h
    have hnone : cancellingSum.evaluate σ = .error .undefined := by
      simp [cancellingSum, evaluate, evaluateSum, ofInt, constant, Atom.evaluate, hσ, orUndefined,
        checked, Word.fit?, Word.Fits, word64, bind, Except.bind]
    cases hnone.symm.trans h
  refine ⟨rfl, ?_, ?_, hvalue _ rfl, _, List.mem_cons_self, fun σ hσ htrue => ?_⟩
  · simp [cancellingSum, Everywhere, parts, partsIn, ofInt, constant, IsWord, Word.Fits, word64]
  · exact List.forall_mem_singleton.mpr ⟨1, rfl, rfl⟩
  · obtain ⟨x, y, hx, -, -⟩ := Constraint.evaluate_eq_iff.mp htrue
    exact hvalue σ hσ x hx

end Expr

end FiniteDomain
