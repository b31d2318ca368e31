import FiniteDomain.Proofs.Engine.Fixpoint
import FiniteDomain.Proofs.Engine.Losses

/-!
# Propagators are local

What a propagator does depends on the value sets of the variables that it reads, and it changes no
other set. Both are said at once of two runs in stores that agree on these variables: the runs come
to the same outcome, their stores still agree there, and elsewhere the second store is what it was.
So a propagator that does nothing in one store does nothing in any other that agrees with it, and a
propagator that changes the store changes a variable that it reads.
-/

namespace FiniteDomain.Engine

open Narrowing

/-- Two stores agree on the given variables, and elsewhere the second one is as a third. -/
structure Store.Paired (among : VarIndex → Prop) (base s t : Store) : Prop where
  bound : ∀ x, among x → x < s.numVariables ∧ x < t.numVariables
  agree : Agree among s t
  frame : ∀ x, ¬ among x → t.set x = base.set x

variable {among : VarIndex → Prop} {risky : Prop} {base s t : Store}

/-! ## Two runs of a confined action -/

namespace Store.Paired

variable (h : Paired among base s t) {x : VarIndex} (hx : among x)
include h hx

theorem update (d : ValueSet) (change : Change) :
    Paired among base (s.update x d change) (t.update x d change) where
  bound := fun y hy => by simpa using h.bound y hy
  agree := fun y hy => by
    by_cases hxy : y = x
    · subst hxy
      obtain ⟨hs, ht⟩ := h.bound y hy
      rw [set_update_self ht, set_update_self hs]
    · rw [set_update_ne hxy, set_update_ne hxy, h.agree y hy]
  frame := fun y hy => by
    have hxy : y ≠ x := fun hxy => hy (hxy ▸ hx)
    rw [set_update_ne hxy, h.frame y hy]

theorem tightenLower (bound : Int) :
    Same (Paired among base) (tightenLower x bound s) (tightenLower x bound t) := by
  simp only [Store.tightenLower, h.agree x hx]
  split
  · exact .ok () h
  · split
    · exact .error .conflict h
    · split
      · exact .error .conflict h
      · exact .ok () (h.update hx _ _)

theorem tightenUpper (bound : Int) :
    Same (Paired among base) (tightenUpper x bound s) (tightenUpper x bound t) := by
  simp only [Store.tightenUpper, h.agree x hx]
  split
  · exact .ok () h
  · split
    · exact .error .conflict h
    · split
      · exact .error .conflict h
      · exact .ok () (h.update hx _ _)

theorem removeValue (value : Int) :
    Same (Paired among base) (removeValue x value s) (removeValue x value t) := by
  simp only [Store.removeValue, h.agree x hx]
  split
  · exact .ok () h
  · split
    · exact h.tightenLower hx _
    · split
      · exact h.tightenUpper hx _
      · exact .ok () (h.update hx _ _)

end Store.Paired

/-- A confined action does the same in stores that agree, and changes nothing else. -/
theorem Narrowing.Confined.blind {α : Type} {action : Narrowing α}
    (h : Confined among risky action) : Blind (Store.Paired among base) action := by
  induction h with
  | pure a => exact fun _ _ hst => .ok a hst
  | conflict => exact fun _ _ hst => .error .conflict hst
  | overflow _ => exact fun _ _ hst => .error .overflow hst
  | @ask _ _ f next hf _ ih =>
      intro s t hst
      rw [bind_apply, bind_apply]
      simp only [Narrowing.ask, hf s t hst.agree]
      exact ih s s t hst
  | bind _ _ ih ih' => exact ih.bind ih'
  | tightenLower bound hx => exact fun _ _ hst => hst.tightenLower hx bound
  | tightenUpper bound hx => exact fun _ _ hst => hst.tightenUpper hx bound
  | removeValue value hx => exact fun _ _ hst => hst.removeValue hx value

/-! ## Testing -/

/-- A trial of an action has the same answer in stores that agree. -/
theorem wouldFail_answer {action : Narrowing Unit} (haction : Confined among risky action)
    (h : Store.Paired among base s t) {b c : Bool} {s' t' : Store}
    (hs : wouldFail action s = .ok b s') (ht : wouldFail action t = .ok c t') : c = b := by
  have htrial : Store.Paired among base (trial s) (trial t) := ⟨h.bound, h.agree, h.frame⟩
  have hrun := haction.blind _ _ htrial
  rw [wouldFail_eq] at hs ht
  generalize action (trial s) = r, action (trial t) = r' at hs ht hrun
  cases hrun with
  | ok _ _ =>
      cases hs
      cases ht
      rfl
  | error f _ =>
      cases f with
      | conflict =>
          cases hs
          cases ht
          rfl
      | overflow => cases hs

/-- What is asked has the same answer if it reads the same. -/
theorem ask_answer {f : Store → Bool} (h : f t = f s) {b c : Bool} {s' t' : Store}
    (hs : ask f s = .ok b s') (ht : ask f t = .ok c t') : c = b := by
  cases hs
  cases ht
  exact h

/-- Testing a rule has the same answer in stores that agree, and leaves them as they are. -/
theorem Rule.isViolated_paired {r : Rule} (h : Store.Paired among base s t) (hs : s.Proper)
    (ht : t.Proper) (hr : ∀ v ∈ r.views, v.Among among) :
    ∃ b, r.isViolated s = .ok b s ∧ r.isViolated t = .ok b t := by
  have hcreated : ∀ v ∈ r.views, v.Created s ∧ v.Created t := fun v hv =>
    ⟨fun x hx => (h.bound x (hr v hv x hx)).1, fun x hx => (h.bound x (hr v hv x hx)).2⟩
  obtain ⟨b, hb⟩ := still_isViolated hs (fun v hv => (hcreated v hv).1) s .refl
  obtain ⟨c, hc⟩ := still_isViolated ht (fun v hv => (hcreated v hv).2) t .refl
  have hconfined : Confined among True r.propagate := Rule.confined hr fun _ _ _ => trivial
  obtain rfl : c = b := by
    cases r with
    | conjunction literals => exact ask_answer (Conjunction.isViolated_eq h.agree hr) hb hc
    | disjunction literals => exact ask_answer (Disjunction.isViolated_eq h.agree hr) hb hc
    | parity literals => exact wouldFail_answer hconfined h hb hc
    | equal v w => exact wouldFail_answer hconfined h hb hc
    | notEqual v w =>
        exact ask_answer (NotEqual.isViolated_eq h.agree (hr v (by simp [views]))
          (hr w (by simp [views]))) hb hc
    | less v w orEqual =>
        exact ask_answer (Less.isViolated_eq h.agree (hr v (by simp [views]))
          (hr w (by simp [views])) orEqual) hb hc
    | linear terms rhs =>
        exact ask_answer (Linear.isViolated_eq h.agree
          (fun u hu => hr u.2 (List.mem_map_of_mem hu)) rhs) hb hc
    | allDifferent views => exact ask_answer (AllDifferent.isViolated_eq h.agree hr) hb hc
    | absolute v w => exact wouldFail_answer hconfined h hb hc
    | operation operator v w result => exact wouldFail_answer hconfined h hb hc
  exact ⟨c, hb, hc⟩

/-! ## Propagators -/

namespace Propagator

variable {p : Propagator}

theorem propagate_of_condition {condition : View} (h : p.condition = some condition) (s : Store) :
    p.propagate s =
      if s.isFalse condition then .ok () s
      else if s.isTrue condition then p.rule.propagate s
      else match p.rule.isViolated s with
        | .ok violated t => if violated then condition.makeFalse t else .ok () t
        | .error f t => .error f t := by
  simp only [propagate, h]
  rw [bind_apply]
  simp only [ask]
  split
  · rfl
  · rw [bind_apply]
    simp only [ask]
    split
    · rfl
    · rw [bind_apply]
      rcases p.rule.isViolated s with ⟨violated, t⟩ | ⟨f, t⟩
      · cases violated <;> rfl
      · rfl

/-- A propagator does the same in stores that agree on what it reads, and changes nothing else. -/
theorem same_propagate (h : Store.Paired p.Reads base s t) (hs : s.Proper) (ht : t.Proper) :
    Same (Store.Paired p.Reads base) (p.propagate s) (p.propagate t) := by
  have hviews : ∀ v ∈ p.views, v.Among p.Reads := fun v hv x hx => ⟨v, hv, hx⟩
  have hrule : ∀ v ∈ p.rule.views, v.Among p.Reads := fun v hv =>
    hviews v (List.mem_append.mpr (.inl hv))
  have hconfined : Confined p.Reads True p.rule.propagate :=
    Rule.confined hrule fun _ _ _ => trivial
  cases hcond : p.condition with
  | none =>
      rw [propagate, hcond]
      exact hconfined.blind s t h
  | some condition =>
      have hcondition := hviews condition (by simp [views, hcond])
      rw [propagate_of_condition hcond, propagate_of_condition hcond,
        h.agree.isFalse_eq hcondition, h.agree.isTrue_eq hcondition]
      split
      · exact .ok () h
      split
      · exact hconfined.blind s t h
      obtain ⟨b, hb, hb'⟩ := Rule.isViolated_paired h hs ht hrule
      rw [hb, hb']
      cases b with
      | false => exact .ok () h
      | true =>
          have hfix : Confined p.Reads True (condition.fix 0) := confined_fix hcondition 0
          exact hfix.blind s t h

end Propagator

/-- Running the propagator succeeds and changes nothing. -/
def Inert (s : Store) (p : Propagator) : Prop := p.propagate s = .ok () s

section

variable {p : Propagator}

/-- What a propagator does not read is left alone by its run. -/
theorem set_eq_of_propagate (hs : s.Proper) (hp : p.Created s) (hrun : p.propagate s = .ok () t)
    {x : VarIndex} (hx : ¬ p.Reads x) : t.set x = s.set x := by
  have hself : Store.Paired p.Reads s s s :=
    ⟨fun y ⟨v, hv, hy⟩ => ⟨hp v hv y hy, hp v hv y hy⟩, fun _ _ => rfl, fun _ _ => rfl⟩
  have hsame := Propagator.same_propagate hself hs hs
  rw [hrun] at hsame
  cases hsame with
  | ok _ hpaired => exact hpaired.frame x hx

/-- A propagator that does nothing does nothing either where the variables that it reads are the
same. -/
theorem Inert.of_agree (h : Inert s p) (hs : s.Proper) (hps : p.Created s) (ht : t.Proper)
    (hpt : p.Created t) (hagree : Store.Agree p.Reads s t) : Inert t p := by
  have hpaired : Store.Paired p.Reads t s t :=
    ⟨fun x ⟨v, hv, hx⟩ => ⟨hps v hv x hx, hpt v hv x hx⟩, hagree, fun _ _ => rfl⟩
  have hsame := Propagator.same_propagate hpaired hs ht
  have hloses := Propagator.loses ht hpt t .refl
  rw [h] at hsame
  rw [Inert]
  generalize p.propagate t = r at hsame hloses ⊢
  cases hsame with
  | @ok _ u _ hsu =>
      obtain ⟨hnarrows, -⟩ := hloses
      have hsets : ∀ x, u.set x = t.set x := fun x => by
        by_cases hx : p.Reads x
        · rw [hsu.agree x hx, hagree x hx]
        · exact hsu.frame x hx
      rw [hnarrows.eq_of_sets hsets]

/-- A propagator that did nothing does nothing again unless it is woken. -/
theorem Inert.narrows (h : Inert s p) (hs : s.Proper) (hp : p.Created s) (hst : s.Narrows t) :
    Woken t p ∨ Inert t p :=
  (woken_or_agree hst p).imp_right
    (h.of_agree hs hp (hst.proper hs) (hp.mono hst.numVariables_eq.ge))

/-- A propagator that does not fail has woken itself, or does nothing when it is run again. -/
theorem woken_or_inert_of_propagate (hs : s.Proper) (hp : p.Created s) (hst : s.Narrows t)
    (hrun : p.propagate s = .ok () t) : Woken t p ∨ Inert t p := by
  refine (woken_or_agree hst p).imp_right fun hagree => ?_
  have hsets : ∀ x, t.set x = s.set x := fun x => by
    by_cases hx : p.Reads x
    · exact hagree x hx
    · exact set_eq_of_propagate hs hp hrun hx
  obtain rfl := hst.eq_of_sets hsets
  exact hrun

end

end FiniteDomain.Engine
