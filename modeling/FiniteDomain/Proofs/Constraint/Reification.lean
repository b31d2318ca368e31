import FiniteDomain.Proofs.Constraint.Selection

/-!
# Constraints behind atoms

An implication whose consequent is structured is rewritten into implications with reifiable
consequents. A disjunct that is no atom gets a selector that implies it. The selector is true
exactly if the disjunct is, so nothing is lost when a disjunct has a truth value; that is known of
all disjuncts whenever the disjunction itself is looked at.
-/

namespace FiniteDomain

open Constraint (decomposeImplication reifyAll reifyDisjuncts reifiedIn evaluate_implication_iff
  evaluate_or_true_iff evaluate_or_false_iff evaluate_and_true_iff evaluate_and_false_iff
  knownTo_implication_iff knownTo_connective_iff knownTo_comparison_iff plainIn_iff mem_reifiedIn)

variable {scope : Scope} {r r' : Registry} {τ τ' : VarId → Int} {σ : Assignment}
  {a c : Constraint} {cs before : List Constraint} {guard : Option Constraint}

/-- The constraint, behind an antecedent if there is one. -/
def guarded : Option Constraint → Constraint → Constraint
  | none, c => c
  | some a, c => .implication a c

theorem evaluate_guarded_true_iff : (guarded guard c).evaluate σ = .ok true ↔
    (∃ a ∈ guard, a.evaluate σ = .ok false) ∨
      (∀ a ∈ guard, a.evaluate σ = .ok true) ∧ c.evaluate σ = .ok true := by
  cases guard with
  | none => simp [guarded]
  | some a => simp [guarded, evaluate_implication_iff, or_comm]

theorem evaluate_guarded_false_iff : (guarded guard c).evaluate σ = .ok false ↔
    (∀ a ∈ guard, a.evaluate σ = .ok true) ∧ c.evaluate σ = .ok false := by
  cases guard with
  | none => simp [guarded]
  | some a => simp [guarded, evaluate_implication_iff]

theorem named_guarded_or : (guarded guard (.or cs)).named = reifiedIn cs := by
  cases guard <;> rfl

theorem knownTo_guarded (hguard : ∀ a ∈ guard, a.isAtom = true ∧ a.KnownTo r)
    (hc : c.KnownTo r) : (guarded guard c).KnownTo r := by
  cases guard with
  | none => exact hc
  | some a => exact knownTo_implication_iff.mpr ⟨(hguard a rfl).2, hc⟩

theorem plain_guarded (hguard : ∀ a ∈ guard, a.isAtom = true ∧ a.KnownTo r)
    (hc : c.Plain scope) : (guarded guard c).Plain scope := by
  cases guard with
  | none => exact hc
  | some a => exact ⟨Constraint.plain_atom (hguard a rfl).1, hc⟩

theorem evaluate_implication_false_iff : (Constraint.implication a c).evaluate σ = .ok false ↔
    a.evaluate σ = .ok true ∧ c.evaluate σ = .ok false := by
  simp [evaluate_implication_iff]

/-- The implications of an atom can be rewritten. -/
def Reifiable (scope : Scope) (c : Constraint) : Prop :=
  ∀ (r : Registry) (a : Constraint), a.isAtom = true → a.KnownTo r → c.KnownTo r →
    c.Plain scope → MakesSome r (decomposeImplication a c) fun pieces r' =>
      Encodes scope r r' pieces (fun τ => ¬ (Constraint.implication a c).Fails τ)
        fun τ => (Constraint.implication a c).Realised τ

/-- A reifiable consequent stays as it is. -/
theorem makes_reified (h : Reifiable scope c) (ha : a.isAtom = true) (hknownA : a.KnownTo r)
    (hknown : c.KnownTo r) (hplain : c.Plain scope) :
    MakesSome r (if c.isReifiable then pure [.implication a c] else decomposeImplication a c)
      fun pieces r' => Encodes scope r r' pieces
        (fun τ => ¬ (Constraint.implication a c).Fails τ)
        fun τ => (Constraint.implication a c).Realised τ := by
  split
  · exact MakesSome.pure (Encodes.single (knownTo_implication_iff.mpr ⟨hknownA, hknown⟩)
      ⟨Constraint.plain_atom ha, hplain⟩)
  · exact h r a ha hknownA hknown hplain

theorem makes_reifyAll (h : ∀ c ∈ cs, Reifiable scope c) (ha : a.isAtom = true)
    (hknownA : a.KnownTo r) (hknown : ∀ c ∈ cs, c.KnownTo r) (hplain : ∀ c ∈ cs, c.Plain scope) :
    MakesSome r (reifyAll a cs) fun pieces r' => Encodes scope r r' pieces
      (fun τ => ∀ c ∈ cs, ¬ (Constraint.implication a c).Fails τ)
      fun τ => ∀ c ∈ cs, (Constraint.implication a c).Realised τ := by
  induction cs generalizing r with
  | nil =>
      rw [reifyAll]
      exact MakesSome.pure ((Encodes.given (by simp) (by simp)).weaken (by simp) (by simp))
  | cons c cs ih =>
      obtain ⟨hc, h⟩ := List.forall_mem_cons.mp h
      obtain ⟨hknownC, hknown⟩ := List.forall_mem_cons.mp hknown
      obtain ⟨hplainC, hplain⟩ := List.forall_mem_cons.mp hplain
      rw [reifyAll]
      refine (makes_reified hc ha hknownA hknownC hplainC).bindIte fun first r₁ hle₁ hfirst => ?_
      refine (ih h (hknownA.mono hle₁) (fun c hc => (hknown c hc).mono hle₁) hplain).bind
        fun others r₂ hle₂ hothers => ?_
      apply MakesSome.pure
      apply hfirst.append hothers hle₁ hle₂
      · exact fun τ _ hfirst hothers => List.forall_mem_cons.mpr ⟨hfirst, hothers⟩
      · exact fun τ _ h => h c List.mem_cons_self
      · intro τ τ' _ h hagree _ _ c hc
        exact (h c (List.mem_cons_of_mem _ hc)).agree
          (knownTo_implication_iff.mpr ⟨hknownA, hknown c hc⟩) hagree

/-- A selector that is true where its disjunct is can take its place. -/
theorem evaluate_selected {x : BoolVar} (hguard : ∀ a ∈ guard, a.isAtom = true ∧ a.KnownTo r)
    (hbefore : ∀ c ∈ before, c.isAtom = true ∧ c.KnownTo r) (hknown : ∀ c ∈ cs, c.KnownTo r)
    (hagree : Agree r.next τ τ') (hx : c.evaluate (total τ) = .ok true → τ' x.id ≠ 0)
    (h : (guarded guard (.or (before ++ c :: cs))).evaluate (total τ) = .ok true) :
    (guarded guard (.or (before ++ .ofVar x :: cs))).evaluate (total τ') = .ok true := by
  rcases evaluate_guarded_true_iff.mp h with ⟨a, ha, hfalse⟩ | ⟨htrue, hor⟩
  · exact evaluate_guarded_true_iff.mpr
      (.inl ⟨a, ha, (hguard a ha).2.evaluate hagree hfalse⟩)
  obtain ⟨hall, d, hd, hdTrue⟩ := evaluate_or_true_iff.mp hor
  have hothers : ∀ d ∈ before ++ cs, ∀ {b}, d.evaluate (total τ) = .ok b →
      d.evaluate (total τ') = .ok b := fun d hd b hb =>
    ((List.mem_append.mp hd).elim (fun hd => (hbefore d hd).2) (hknown d)).evaluate hagree hb
  refine evaluate_guarded_true_iff.mpr (.inr ⟨fun a ha => ?_, ?_⟩)
  · exact (hguard a ha).2.evaluate hagree (htrue a ha)
  refine evaluate_or_true_iff.mpr ⟨fun d hd => ?_, ?_⟩
  · rcases List.mem_append.mp hd with hd | hd
    · obtain ⟨b, hb⟩ := hall d (List.mem_append_left _ hd)
      exact ⟨b, hothers d (List.mem_append_left _ hd) hb⟩
    · rcases List.mem_cons.mp hd with rfl | hd
      · exact ⟨_, evaluate_ofVar x τ'⟩
      · obtain ⟨b, hb⟩ := hall d (List.mem_append_right _ (List.mem_cons_of_mem _ hd))
        exact ⟨b, hothers d (List.mem_append_right _ hd) hb⟩
  · rcases List.mem_append.mp hd with hd | hd
    · exact ⟨d, List.mem_append_left _ hd, hothers d (List.mem_append_left _ hd) hdTrue⟩
    · rcases List.mem_cons.mp hd with rfl | hd
      · refine ⟨.ofVar x, by simp, ?_⟩
        rw [evaluate_ofVar, bne_iff_ne.mpr (hx hdTrue)]
      · exact ⟨d, by simp [hd], hothers d (List.mem_append_right _ hd) hdTrue⟩

/-- A true selector makes its disjunct true. -/
theorem not_fails_of_selected {x : BoolVar} (himp : ¬ (Constraint.implication (.ofVar x) c).Fails τ)
    (hor : ¬ (guarded guard (.or (before ++ .ofVar x :: cs))).Fails τ) :
    ¬ (guarded guard (.or (before ++ c :: cs))).Fails τ := by
  intro hfails
  obtain ⟨htrue, hfalse⟩ := evaluate_guarded_false_iff.mp hfails
  rw [evaluate_or_false_iff, List.forall_mem_append, List.forall_mem_cons] at hfalse
  obtain ⟨hbeforeFalse, hcFalse, hcsFalse⟩ := hfalse
  by_cases hx : τ x.id = 0
  · apply hor
    refine evaluate_guarded_false_iff.mpr ⟨htrue, evaluate_or_false_iff.mpr ?_⟩
    refine List.forall_mem_append.mpr ⟨hbeforeFalse, List.forall_mem_cons.mpr ⟨?_, hcsFalse⟩⟩
    simp [evaluate_ofVar, hx]
  · apply himp
    exact evaluate_implication_iff.mpr (.inl ⟨by simp [evaluate_ofVar, hx], hcFalse⟩)

/-- A selector that says whether its disjunct is true can take its place, and imply it. -/
theorem realised_selected {x : BoolVar} (hguard : ∀ a ∈ guard, a.isAtom = true ∧ a.KnownTo r)
    (hbefore : ∀ c ∈ before, c.isAtom = true ∧ c.KnownTo r) (hknownC : c.KnownTo r)
    (hknown : ∀ c ∈ cs, c.KnownTo r) (hagree : Agree r.next τ τ')
    (hx : τ' x.id ≠ 0 ↔ c.evaluate (total τ) = .ok true)
    (h : (guarded guard (.or (before ++ c :: cs))).Realised τ) :
    (Constraint.implication (.ofVar x) c).Realised τ' ∧
      (guarded guard (.or (before ++ .ofVar x :: cs))).Realised τ' := by
  obtain ⟨hor, hnamed⟩ := h
  rw [named_guarded_or] at hnamed
  have hreified : ∀ d ∈ c :: cs, d.KnownTo r → ∀ o ∈ d.reified, o.Representable τ' :=
    fun d hd hknownD o ho => (hnamed o (mem_reifiedIn.mpr
      ⟨d, List.mem_append_right _ hd, ho⟩)).agree (hknownD.reified ho) hagree
  refine ⟨realised_implication_ofVar (fun hne => hknownC.evaluate hagree (hx.mp hne))
    (hreified c List.mem_cons_self hknownC),
    evaluate_selected hguard hbefore hknown hagree hx.mpr hor, fun o ho => ?_⟩
  rw [named_guarded_or] at ho
  obtain ⟨d, hd, ho⟩ := mem_reifiedIn.mp ho
  rcases List.mem_append.mp hd with hd | hd
  · rw [Constraint.reified_atom (hbefore d hd).1] at ho
    cases ho
  · rcases List.mem_cons.mp hd with rfl | hd
    · cases ho
    · exact hreified d (List.mem_cons_of_mem _ hd) (hknown d hd) o ho

/-- What a disjunct that is no atom becomes, before the pieces of the others. -/
theorem encodes_selected {r₁ r₂ : Registry} {x : BoolVar} {implied pieces : List Constraint}
    (hid : x.id = r.next) (hle₁ : r.extend (.bool x) ≤ r₁) (hle₂ : r₁ ≤ r₂)
    (hguard : ∀ a ∈ guard, a.isAtom = true ∧ a.KnownTo r)
    (hbefore : ∀ c ∈ before, c.isAtom = true ∧ c.KnownTo r) (hknownC : c.KnownTo r)
    (hknown : ∀ c ∈ cs, c.KnownTo r)
    (himplied : Encodes scope (r.extend (.bool x)) r₁ implied
      (fun τ => ¬ (Constraint.implication (.ofVar x) c).Fails τ)
      fun τ => (Constraint.implication (.ofVar x) c).Realised τ)
    (hpieces : Encodes scope r₁ r₂ pieces
      (fun τ => ¬ (guarded guard (.or (before ++ .ofVar x :: cs))).Fails τ)
      fun τ => (guarded guard (.or (before ++ .ofVar x :: cs))).Realised τ) :
    Encodes scope r r₂ (implied ++ pieces)
      (fun τ => ¬ (guarded guard (.or (before ++ c :: cs))).Fails τ)
      fun τ => (guarded guard (.or (before ++ c :: cs))).Realised τ := by
  have hle := r.le_extend (.bool x)
  have hknownOr : (guarded guard (.or (before ++ .ofVar x :: cs))).KnownTo (r.extend (.bool x)) := by
    apply knownTo_guarded fun a ha => ⟨(hguard a ha).1, (hguard a ha).2.mono hle⟩
    refine knownTo_connective_iff.mpr (List.forall_mem_append.mpr ⟨?_, ?_⟩)
    · exact fun d hd => (hbefore d hd).2.mono hle
    · exact List.forall_mem_cons.mpr
        ⟨knownTo_ofVar (Registry.knows_extend hid), fun d hd => (hknown d hd).mono hle⟩
  have hall := himplied.append hpieces hle₁ hle₂
    (S := fun τ => ¬ (guarded guard (.or (before ++ c :: cs))).Fails τ)
    (C := fun τ => (Constraint.implication (.ofVar x) c).Realised τ ∧
      (guarded guard (.or (before ++ .ofVar x :: cs))).Realised τ)
    (fun τ _ himp hor => not_fails_of_selected himp hor) (fun τ _ h => h.1)
    (fun τ τ' _ h hagree _ _ => h.2.agree hknownOr hagree)
  classical
  refine Encodes.create (x := .bool x) hid hall fun _ τ hτ h => ?_
  refine ⟨if c.evaluate (total τ) = .ok true then 1 else 0, by split <;> rfl,
    fun τ' hagree hvalue => realised_selected hguard hbefore hknownC hknown hagree ?_ h⟩
  rw [show τ' x.id = _ from hvalue]
  split <;> simp_all

/-- A true antecedent makes one of the disjuncts true, or of the constraints given before. -/
theorem makes_reifyDisjuncts (guard : Option Constraint) (before : List Constraint)
    (h : ∀ c ∈ cs, Reifiable scope c)
    (hguard : ∀ a ∈ guard, a.isAtom = true ∧ a.KnownTo r)
    (hbefore : ∀ c ∈ before, c.isAtom = true ∧ c.KnownTo r)
    (hknown : ∀ c ∈ cs, c.KnownTo r) (hplain : ∀ c ∈ cs, c.Plain scope) :
    MakesSome r (reifyDisjuncts cs) fun p r' => Encodes scope r r'
      (p.1 ++ [guarded guard (.or (before ++ p.2))])
      (fun τ => ¬ (guarded guard (.or (before ++ cs))).Fails τ)
      fun τ => (guarded guard (.or (before ++ cs))).Realised τ := by
  induction cs generalizing r before with
  | nil =>
      rw [reifyDisjuncts]
      apply MakesSome.pure
      rw [List.append_nil]
      apply Encodes.single
      · exact knownTo_guarded hguard (knownTo_connective_iff.mpr fun c hc => (hbefore c hc).2)
      · refine plain_guarded hguard ⟨plainIn_iff.mpr fun c hc => ?_, by simp⟩
        exact Constraint.plain_atom (hbefore c hc).1
  | cons c cs ih =>
      obtain ⟨hc, h⟩ := List.forall_mem_cons.mp h
      obtain ⟨hknownC, hknown⟩ := List.forall_mem_cons.mp hknown
      obtain ⟨hplainC, hplain⟩ := List.forall_mem_cons.mp hplain
      rw [reifyDisjuncts]
      split
      · next hatom =>
        have hbefore' : ∀ d ∈ before ++ [c], d.isAtom = true ∧ d.KnownTo r :=
          List.forall_mem_append.mpr ⟨hbefore, List.forall_mem_singleton.mpr ⟨hatom, hknownC⟩⟩
        refine (ih _ h hguard hbefore' hknown hplain).bind fun p r₁ _ hp => ?_
        apply MakesSome.pure
        simpa only [List.append_assoc, List.cons_append, List.nil_append] using hp
      refine (MakesSome.lift makes_boolVar).bind fun x r₁ _ hx => ?_
      obtain ⟨hid, rfl⟩ := hx
      have hle := r.le_extend (.bool x)
      have hknows : (Constraint.ofVar x).KnownTo (r.extend (.bool x)) :=
        knownTo_ofVar (Registry.knows_extend hid)
      refine (makes_reified hc rfl hknows (hknownC.mono hle) hplainC).bindIte
        fun implied r₁ hle₁ himplied => ?_
      have hle' := Registry.le_trans hle hle₁
      have hbefore' : ∀ d ∈ before ++ [.ofVar x], d.isAtom = true ∧ d.KnownTo r₁ :=
        List.forall_mem_append.mpr ⟨fun d hd => ⟨(hbefore d hd).1, (hbefore d hd).2.mono hle'⟩,
          List.forall_mem_singleton.mpr ⟨rfl, hknows.mono hle₁⟩⟩
      refine (ih _ h (fun a ha => ⟨(hguard a ha).1, (hguard a ha).2.mono hle'⟩) hbefore'
        (fun c hc => (hknown c hc).mono hle') hplain).bind fun p r₂ hle₂ hp => ?_
      obtain ⟨constraints, disjuncts⟩ := p
      apply MakesSome.pure
      simp only [List.append_assoc, List.cons_append, List.nil_append] at hp ⊢
      exact encodes_selected hid hle₁ hle₂ hguard hbefore hknownC hknown himplied hp

/-- The opposite of an atom is an atom with the opposite truth value. -/
theorem negate_spec {n : Constraint} (hn : a.negate? = some n) (hknown : a.KnownTo r) :
    n.isAtom = true ∧ n.KnownTo r ∧ ∀ τ, r.Respects τ → ∀ b,
      a.evaluate (total τ) = .ok b ↔ n.evaluate (total τ) = .ok !b := by
  cases a with
  | literal l =>
      obtain rfl := Option.some.inj hn
      refine ⟨rfl, hknown, fun τ hτ b => ?_⟩
      have hvalue := Atom.value_literal hτ (hknown _ List.mem_cons_self)
      have hl := Constraint.evaluate_asAtom (c := .literal l) rfl hτ hknown
      have hn := Constraint.evaluate_asAtom (c := .literal l.negate) rfl hτ hknown
      have hopposite : (Atom.literal l.negate).value τ = 1 - (Atom.literal l).value τ := by
        cases hnegated : l.negated <;> simp [Atom.value, Literal.negate, hnegated]
      rw [hl, hn, hopposite]
      rcases hvalue with h | h <;> rw [h] <;> cases b <;> simp
  | constant value =>
      obtain rfl := Option.some.inj hn
      refine ⟨rfl, Constraint.knownTo_constant _, fun τ _ b => ?_⟩
      cases value <;> cases b <;> simp [Constraint.evaluate]
  | _ => cases hn

theorem evaluate_negate {n : Constraint} (hn : a.negate? = some n) (hknown : a.KnownTo r)
    (hτ : r.Respects τ) (h : a.evaluate (total τ) ≠ .ok true) : n.evaluate (total τ) = .ok true := by
  obtain ⟨hatom, hknownN, hopposite⟩ := negate_spec hn hknown
  obtain ⟨b, hb⟩ := Constraint.exists_evaluate_atom hatom hτ hknownN
  cases b with
  | true => exact hb
  | false => exact absurd ((hopposite τ hτ true).mpr hb) h

theorem encodes_conjunction {pieces : List Constraint}
    (h : Encodes scope r r' pieces (fun τ => ∀ c ∈ cs, ¬ (Constraint.implication a c).Fails τ)
      fun τ => ∀ c ∈ cs, (Constraint.implication a c).Realised τ) :
    Encodes scope r r' pieces
      (fun τ => ¬ (Constraint.implication a (.connective .and cs)).Fails τ)
      fun τ => (Constraint.implication a (.connective .and cs)).Realised τ := by
  apply h.weaken
  · intro τ _ hall hfails
    obtain ⟨htrue, hfalse⟩ := evaluate_implication_false_iff.mp hfails
    obtain ⟨-, c, hc, hcFalse⟩ := evaluate_and_false_iff.mp hfalse
    exact hall c hc (evaluate_implication_false_iff.mpr ⟨htrue, hcFalse⟩)
  · rintro τ - ⟨htrue, hnamed⟩ c hc
    refine ⟨?_, fun o ho => hnamed o (mem_reifiedIn.mpr ⟨c, hc, ho⟩)⟩
    rcases evaluate_implication_iff.mp htrue with ⟨ha, hall⟩ | ⟨ha, -⟩
    · exact evaluate_implication_iff.mpr (.inl ⟨ha, evaluate_and_true_iff.mp hall c hc⟩)
    · exact evaluate_implication_iff.mpr (.inr ⟨ha, rfl⟩)

theorem evaluate_consequent (h : (Constraint.implication a c).evaluate σ = .ok true)
    (ha : a.evaluate σ = .ok true) : c.evaluate σ = .ok true := by
  rcases evaluate_implication_iff.mp h with ⟨-, hc⟩ | ⟨hfalse, -⟩
  · exact hc
  · cases ha.symm.trans hfalse

section Nested

variable {b notA notB : Constraint} {x : BoolVar}

/-- The selector is true where both antecedents are, and makes the consequent true. -/
theorem not_fails_of_clause (hτ : r.Respects τ) (hknownA : a.KnownTo r) (hknownB : b.KnownTo r)
    (hnotA : a.negate? = some notA) (hnotB : b.negate? = some notB)
    (hor : ¬ (Constraint.or [notA, notB, .ofVar x]).Fails τ)
    (himp : ¬ (Constraint.implication (.ofVar x) c).Fails τ) :
    ¬ (Constraint.implication a (.implication b c)).Fails τ := by
  obtain ⟨-, -, hoppositeA⟩ := negate_spec hnotA hknownA
  obtain ⟨-, -, hoppositeB⟩ := negate_spec hnotB hknownB
  intro hfails
  obtain ⟨haTrue, hfalse⟩ := evaluate_implication_false_iff.mp hfails
  obtain ⟨hbTrue, hcFalse⟩ := evaluate_implication_false_iff.mp hfalse
  by_cases hx : τ x.id = 0
  · apply hor
    apply evaluate_or_false_iff.mpr
    simpa using ⟨(hoppositeA τ hτ true).mp haTrue, (hoppositeB τ hτ true).mp hbTrue,
      by simp [evaluate_ofVar, hx]⟩
  · apply himp
    exact evaluate_implication_false_iff.mpr ⟨by simp [evaluate_ofVar, hx], hcFalse⟩

/-- Where the selector says whether both antecedents are true, one of the three is. -/
theorem evaluate_clause (hτ : r.Respects τ) (hknownA : a.KnownTo r) (hknownB : b.KnownTo r)
    (hnotA : a.negate? = some notA) (hnotB : b.negate? = some notB) (hagree : Agree r.next τ τ')
    (hx : a.evaluate (total τ) = .ok true ∧ b.evaluate (total τ) = .ok true → τ' x.id ≠ 0) :
    (Constraint.or [notA, notB, .ofVar x]).evaluate (total τ') = .ok true := by
  obtain ⟨hatomA, hknownNotA, -⟩ := negate_spec hnotA hknownA
  obtain ⟨hatomB, hknownNotB, -⟩ := negate_spec hnotB hknownB
  refine evaluate_or_true_iff.mpr ⟨fun d hd => ?_, ?_⟩
  · simp only [List.mem_cons, List.not_mem_nil, or_false] at hd
    rcases hd with rfl | rfl | rfl
    · exact Constraint.exists_evaluate_atom hatomA (hτ.agree hagree) hknownNotA
    · exact Constraint.exists_evaluate_atom hatomB (hτ.agree hagree) hknownNotB
    · exact ⟨_, evaluate_ofVar x τ'⟩
  · by_cases ha : a.evaluate (total τ) = .ok true
    · by_cases hb : b.evaluate (total τ) = .ok true
      · refine ⟨.ofVar x, by simp, ?_⟩
        rw [evaluate_ofVar, bne_iff_ne.mpr (hx ⟨ha, hb⟩)]
      · exact ⟨notB, by simp, hknownNotB.evaluate hagree (evaluate_negate hnotB hknownB hτ hb)⟩
    · exact ⟨notA, by simp, hknownNotA.evaluate hagree (evaluate_negate hnotA hknownA hτ ha)⟩

/-- The antecedents of a nested implication together imply its consequent. -/
theorem encodes_nested {pieces : List Constraint}
    (hid : x.id = r.next) (hle : r.extend (.bool x) ≤ r') (hknownA : a.KnownTo r)
    (hknownB : b.KnownTo r) (hknownC : c.KnownTo r) (hnotA : a.negate? = some notA)
    (hnotB : b.negate? = some notB)
    (h : Encodes scope (r.extend (.bool x)) r' pieces
      (fun τ => ¬ (Constraint.implication (.ofVar x) c).Fails τ)
      fun τ => (Constraint.implication (.ofVar x) c).Realised τ) :
    Encodes scope r r' (.or [notA, notB, .ofVar x] :: pieces)
      (fun τ => ¬ (Constraint.implication a (.implication b c)).Fails τ)
      fun τ => (Constraint.implication a (.implication b c)).Realised τ := by
  have hextend := r.le_extend (.bool x)
  obtain ⟨hatomA, hknownNotA, -⟩ := negate_spec hnotA hknownA
  obtain ⟨hatomB, hknownNotB, -⟩ := negate_spec hnotB hknownB
  have hatoms : ∀ d ∈ [notA, notB, .ofVar x], d.isAtom = true := by
    simpa using ⟨hatomA, hatomB, (rfl : (Constraint.ofVar x).isAtom = true)⟩
  have hknowns : ∀ d ∈ [notA, notB, .ofVar x], d.KnownTo (r.extend (.bool x)) := by
    simpa using ⟨hknownNotA.mono hextend, hknownNotB.mono hextend,
      knownTo_ofVar (Registry.knows_extend hid)⟩
  have hclause : Encodes scope (r.extend (.bool x)) r' ([.or [notA, notB, .ofVar x]] ++ pieces)
      _ _ := h.prepend hle (List.forall_mem_singleton.mpr (knownTo_connective_iff.mpr hknowns))
        (List.forall_mem_singleton.mpr
          ⟨plainIn_iff.mpr fun d hd => Constraint.plain_atom (hatoms d hd), by simp⟩)
  refine Encodes.create (x := .bool x) hid (hclause.weaken ?_ fun τ _ h => h) ?_
  · rintro τ hτ ⟨hor, himp⟩
    exact not_fails_of_clause (hτ.mono (Registry.le_trans hextend hle)) hknownA hknownB hnotA hnotB
      (hor _ List.mem_cons_self) himp
  · classical
    rintro - τ hτ ⟨htrue, hnamed⟩
    refine ⟨if a.evaluate (total τ) = .ok true ∧ b.evaluate (total τ) = .ok true then 1 else 0,
      by split <;> rfl, fun τ' hagree hvalue => ?_⟩
    have hx : τ' x.id ≠ 0 ↔
        a.evaluate (total τ) = .ok true ∧ b.evaluate (total τ) = .ok true := by
      rw [show τ' x.id = _ from hvalue]
      split <;> simp_all
    refine ⟨List.forall_mem_singleton.mpr ⟨?_, ?_⟩, realised_implication_ofVar (fun hne => ?_) ?_⟩
    · exact evaluate_clause hτ hknownA hknownB hnotA hnotB hagree hx.mpr
    · have hnone : (Constraint.or [notA, notB, .ofVar x]).named = [] :=
        Constraint.reifiedIn_eq_nil fun d hd => Constraint.reified_atom (hatoms d hd)
      simp [hnone]
    · obtain ⟨ha, hb⟩ := hx.mp hne
      exact hknownC.evaluate hagree (evaluate_consequent (evaluate_consequent htrue ha) hb)
    · exact fun o ho => (hnamed o ho).agree (hknownC.reified ho) hagree

end Nested

/-- A comparison stays behind the atom, over the names of its sides. -/
theorem encodes_comparison {r₁ r₂ : Registry} {comparator : Comparator}
    {lhs rhs lhs' rhs' : Expr} {definitionsL definitionsR : List Constraint}
    (ha : a.isAtom = true) (hknownA : a.KnownTo r) (hknownL : lhs.KnownTo r)
    (hknownR : rhs.KnownTo r) (hle₁ : r ≤ r₁) (hle₂ : r₁ ≤ r₂)
    (hl : Named scope r r₁ lhs lhs' definitionsL)
    (hr : Named scope r₁ r₂ rhs rhs' definitionsR) :
    Encodes scope r r₂
      (definitionsL ++ definitionsR ++ [.implication a (.comparison comparator lhs' rhs')])
      (fun τ => ¬ (Constraint.implication a (.comparison comparator lhs rhs)).Fails τ)
      fun τ => (Constraint.implication a (.comparison comparator lhs rhs)).Realised τ := by
  have hle := Registry.le_trans hle₁ hle₂
  have hsingle := Encodes.single (c := .implication a (.comparison comparator lhs' rhs'))
    (knownTo_implication_iff.mpr ⟨hknownA.mono hle,
      knownTo_comparison_iff.mpr ⟨hl.known.mono hle₂, hr.known⟩⟩)
    ⟨Constraint.plain_atom ha, Constraint.plain_comparison hl.plain hr.plain⟩
  apply (Expr.encodes_pair hknownR hl hr hle₁ hle₂).append hsingle hle (Registry.le_refl _)
  · rintro τ - ⟨htracesL, htracesR⟩ himp hfails
    obtain ⟨htrue, hfalse⟩ := evaluate_implication_false_iff.mp hfails
    exact himp (evaluate_implication_false_iff.mpr
      ⟨htrue, Constraint.evaluate_comparison_of_traces htracesL htracesR hfalse⟩)
  · exact fun τ _ h => h.2
  · rintro τ τ' - ⟨htrue, -⟩ hagree - ⟨htracesL, htracesR⟩
    constructor
    · rcases evaluate_implication_iff.mp htrue with ⟨haTrue, hcomparison⟩ | ⟨haFalse, -⟩
      · refine evaluate_implication_iff.mpr (.inl ⟨hknownA.evaluate hagree haTrue, ?_⟩)
        exact Constraint.evaluate_comparison_of_traces ((hknownL.traces hagree).trans htracesL)
          ((hknownR.traces hagree).trans htracesR) hcomparison
      · exact evaluate_implication_iff.mpr (.inr ⟨hknownA.evaluate hagree haFalse, rfl⟩)
    · simp [Constraint.named, Constraint.reified, Expr.named_eq_nil hl.isAtom,
        Expr.named_eq_nil hr.isAtom]

theorem reifiable_and (h : ∀ c ∈ cs, Reifiable scope c) :
    Reifiable scope (.connective .and cs) := by
  intro r a ha hknownA hknown hplain
  rw [decomposeImplication]
  split
  · exact MakesSome.failure
  exact (makes_reifyAll h ha hknownA (knownTo_connective_iff.mp hknown)
    (plainIn_iff.mp hplain.1)).weaken fun p r' _ hp => encodes_conjunction hp

theorem reifiable_or (h : ∀ c ∈ cs, Reifiable scope c) : Reifiable scope (.connective .or cs) := by
  intro r a ha hknownA hknown hplain
  rw [decomposeImplication]
  split
  · exact MakesSome.failure
  have hguard : ∀ g ∈ some a, g.isAtom = true ∧ g.KnownTo r := by
    simpa using ⟨ha, hknownA⟩
  refine (makes_reifyDisjuncts (some a) [] h hguard (by simp) (knownTo_connective_iff.mp hknown)
    (plainIn_iff.mp hplain.1)).bind fun p r' _ hp => ?_
  obtain ⟨constraints, disjuncts⟩ := p
  exact MakesSome.pure hp

theorem reifiable_implication {b : Constraint} (h : Reifiable scope c) :
    Reifiable scope (.implication b c) := by
  intro r a ha hknownA hknown hplain
  obtain ⟨hknownB, hknownC⟩ := knownTo_implication_iff.mp hknown
  rw [decomposeImplication]
  split
  · exact MakesSome.failure
  refine (MakesSome.lift makes_boolVar).bind fun x r₁ hle hx => ?_
  obtain ⟨hid, rfl⟩ := hx
  refine MakesSome.ofOption.bind fun notA r₁ _ hnotA => ?_
  obtain ⟨hnotA, rfl⟩ := hnotA
  refine MakesSome.ofOption.bind fun notB r₁ _ hnotB => ?_
  obtain ⟨hnotB, rfl⟩ := hnotB
  refine (makes_reified h rfl (knownTo_ofVar (Registry.knows_extend hid)) (hknownC.mono hle)
    hplain.2).bindIte fun pieces r₁ hle₁ hpieces => ?_
  exact MakesSome.pure (encodes_nested hid hle₁ hknownA hknownB hknownC hnotA hnotB hpieces)

theorem reifiable_comparison {comparator : Comparator} {lhs rhs : Expr} :
    Reifiable scope (.comparison comparator lhs rhs) := by
  intro r a ha hknownA hknown hplain
  obtain ⟨hknownL, hknownR⟩ := knownTo_comparison_iff.mp hknown
  rw [decomposeImplication]
  split
  · exact MakesSome.failure
  next hatoms =>
  obtain ⟨hplainL, hplainR⟩ := hplain.sides (by simpa [ha] using hatoms)
  split
  · exact MakesSome.failure
  refine (MakesSome.lift (Expr.makes_atomize hknownL hplainL)).bind fun p r₁ hle₁ hl => ?_
  obtain ⟨lhs', definitionsL⟩ := p
  refine (MakesSome.lift (Expr.makes_atomize (hknownR.mono hle₁) hplainR)).bind
    fun q r₂ hle₂ hr => ?_
  obtain ⟨rhs', definitionsR⟩ := q
  exact MakesSome.pure (encodes_comparison ha hknownA hknownL hknownR hle₁ hle₂ hl hr)

/-- Implications of an atom can be rewritten whatever the consequent is. -/
theorem reifiable (c : Constraint) : Reifiable scope c := by
  induction c using Constraint.induction with
  | literal l => exact fun r a _ _ _ _ => MakesSome.failure
  | constant value => exact fun r a _ _ _ _ => MakesSome.failure
  | connective kind args ih =>
      cases kind with
      | and => exact reifiable_and ih
      | or => exact reifiable_or ih
      | xor => exact fun r a _ _ _ _ => MakesSome.failure
  | implication b c _ ih => exact reifiable_implication ih
  | comparison comparator lhs rhs => exact reifiable_comparison
  | global g => exact fun r a _ _ _ _ => MakesSome.failure

end FiniteDomain
