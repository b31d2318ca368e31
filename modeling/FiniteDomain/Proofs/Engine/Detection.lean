import FiniteDomain.Proofs.Engine.Accumulation

/-!
# Tests that stand in for propagating

Six rules have a test of their own for being violated, which looks at bounds and fixed values
instead of propagating and taking everything back. The test leaves the store alone. If it is
positive, propagating on the same store ends in a conflict; over fixed views the converse holds
too. So a condition is made false only where no valuation is left under which the rule holds.

What is compared or added up has to be exact here. Two views that were both moved to the end of
the 64-bit range are found to be equal, though propagating their disequality removes nothing.
-/

namespace FiniteDomain.Engine

open Narrowing

variable {s t : Store} {v w : View} {a b : Valuation} {x : Int} {literals views : List View}

namespace Store

/-- A fixed view that is not false is true everywhere. -/
theorem eval_ne_zero_of_isFixed (hs : s.Proper) (hv : v.Created s) (hfixed : s.isFixed v = true)
    (hfalse : s.isFalse v = false) (ha : s.Admits a) : v.eval a ≠ 0 := by
  intro hzero
  refine Bool.eq_false_iff.mp hfalse ((isFalse_iff hs hv).mpr fun b hb => ?_)
  rw [eval_eq_of_isFixed hv hfixed hb ha, hzero]

end Store

namespace Narrowing

variable {α : Type} {action : Narrowing α} {visit : Int → Narrowing Unit} {p : Int → Prop}

theorem eq_of_ask {f : Store → α} {c : α} (h : ask f s = .ok c t) : f s = c :=
  (EStateM.Result.ok.inj h).1

/-- An action that establishes something absurd does not succeed. -/
theorem Checks.ne_ok {c : α} (h : Checks s action fun _ => False) : action s ≠ .ok c t := by
  intro hrun
  have h := h s .refl
  rw [hrun] at h
  exact h.2

section

variable (hs : s.Proper) (hv : v.Created s)
include hs hv

theorem checks_atLeast_admits (bound : Int) :
    Checks s (v.atLeast bound) fun _ => ∃ a, s.Admits a ∧ bound ≤ v.eval a :=
  .of_restricts hs fun _ ht =>
    Store.restricts_atLeast (ht.proper hs) (hv.mono ht.numVariables_eq.ge) bound

theorem checks_atMost_admits (bound : Int) :
    Checks s (v.atMost bound) fun _ => ∃ a, s.Admits a ∧ v.eval a ≤ bound :=
  .of_restricts hs fun _ ht =>
    Store.restricts_atMost (ht.proper hs) (hv.mono ht.numVariables_eq.ge) bound

theorem checks_remove_admits (value : Int) :
    Checks s (v.remove value) fun _ => ∃ a, s.Admits a ∧ v.eval a ≠ value :=
  .of_restricts hs fun _ ht =>
    Store.restricts_remove (ht.proper hs) (hv.mono ht.numVariables_eq.ge) value

end

/-- A view that is fixed from the start is still fixed to its value when an action asks for it. -/
theorem checks_whenFixed_of_value? (hs : s.Proper) (hv : v.Exact s)
    (h : ∀ x, Checks s (visit x) fun _ => p x) :
    Checks s (whenFixed v visit) fun _ => ∀ x, s.value? v = some x → p x := by
  refine Obeys.bind (p := fun value => ∀ x, s.value? v = some x → value = some x)
    (.ask fun t ht x hx => ?_) fun value hvalue => ?_
  · have heval := (Store.value?_eq_some_iff hs hv).mp hx
    exact (Store.value?_eq_some_iff (ht.proper hs) (hv.mono ht.le)).mpr fun a ha =>
      heval a (ht.admits ha)
  · cases value with
    | none => exact .pure fun x hx => by cases hvalue x hx
    | some y =>
        refine (h y).weaken fun _ hy x hx => ?_
        obtain rfl := Option.some.inj (hvalue x hx)
        exact hy

end Narrowing

/-! ## A positive test -/

section

variable (hs : s.Proper) (hl : ∀ v ∈ literals, v.Created s)
include hs hl

theorem Conjunction.checks_of_isViolated (h : isViolated literals s = true) :
    Checks s (propagate literals) fun _ => False := by
  obtain ⟨v, hv, hfalse⟩ := List.any_eq_true.mp h
  refine (Obeys.forM fun w hw => checks_remove_admits hs (hl w hw) 0).weaken fun _ htrue => ?_
  obtain ⟨a, ha, hne⟩ := htrue v hv
  exact hne ((Store.isFalse_iff hs (hl v hv)).mp hfalse a ha)

theorem Disjunction.checks_of_isViolated (h : isViolated literals s = true) :
    Checks s (propagate literals) fun _ => False := by
  have hzero : ∀ v ∈ literals, ∀ a, s.Admits a → v.eval a = 0 := fun v hv =>
    (Store.isFalse_iff hs (hl v hv)).mp (List.all_eq_true.mp h v hv)
  have hcreated : ∀ {t}, s.Narrows t → ∀ v ∈ literals, v.Created t := fun ht v hv =>
    (hl v hv).mono ht.numVariables_eq.ge
  -- literals that are false stay false, so none is true and none is left over
  refine Obeys.bind (p := fun satisfied => satisfied = false) (.ask fun t ht => ?_) fun _ hfalse => ?_
  · refine List.any_eq_false.mpr fun v hv htrue => ?_
    have ha := Store.admits_least (ht.proper hs)
    exact (Store.isTrue_iff (ht.proper hs) (hcreated ht v hv)).mp htrue _ ha
      (hzero v hv _ (ht.admits ha))
  subst hfalse
  refine Obeys.bind (p := fun rest => rest = []) (.ask fun t ht => ?_) fun rest hrest => ?_
  · refine List.filter_eq_nil_iff.mpr fun v hv => ?_
    have hfalse : t.isFalse v = true :=
      (Store.isFalse_iff (ht.proper hs) (hcreated ht v hv)).mpr fun a ha => hzero v hv a (ht.admits ha)
    simp [hfalse]
  · subst hrest
    exact checks_conflict

end

section

variable (hs : s.Proper) (hv : v.Exact s) (hw : w.Exact s)
include hs hv hw

theorem NotEqual.checks_of_isViolated (h : isViolated v w s = true) :
    Checks s (propagate v w) fun _ => False := by
  simp only [isViolated] at h
  split at h
  · next i j hi hj =>
    rw [beq_iff_eq] at h
    rw [propagate_eq]
    refine (checks_whenFixed_of_value? hs hv fun x => checks_remove_admits hs hw.created x).bind
      fun _ hne => ?_
    obtain ⟨a, ha, hne⟩ := hne i hi
    exact absurd (h ▸ (Store.value?_eq_some_iff hs hw).mp hj a ha) hne
  · cases h

theorem Less.checks_of_isViolated {orEqual : Bool} (h : isViolated v w orEqual s = true) :
    Checks s (propagate v w orEqual) fun _ => False := by
  refine Obeys.bind (p := fun _ => True) (.ask fun _ _ => trivial) fun _ _ => ?_
  refine (checks_atMost_admits hs hv.created _).bind fun _ _ => ?_
  refine Obeys.bind (p := fun lower => s.lowerBound v ≤ lower) (.ask fun t ht => ?_) fun lower hle => ?_
  · obtain ⟨a, ha, heq⟩ := Store.exists_eval_eq_lowerBound (ht.proper hs) (hv.mono ht.le)
    exact heq ▸ Store.lowerBound_le_eval hs hv (ht.admits ha)
  refine (checks_atLeast_admits hs hw.created _).weaken fun _ hexists => ?_
  obtain ⟨a, ha, hbound⟩ := hexists
  have hupper := Store.eval_le_upperBound hs hw ha
  have hlt : s.upperBound w < word64.clamp (s.lowerBound v + gap orEqual) := of_decide_eq_true h
  have hmono : word64.clamp (s.lowerBound v + gap orEqual) ≤ word64.clamp (lower + gap orEqual) :=
    Word.clamp_mono (by decide) (by omega)
  omega

end

/-- The values of the views that are fixed from the start have to be pairwise different. -/
theorem AllDifferent.checks_nodup (hs : s.Proper) {before : List View}
    (hbefore : ∀ v ∈ before, v.Exact s) (hviews : ∀ v ∈ views, v.Exact s) :
    Checks s (propagateFrom before views) fun _ => (views.filterMap s.value?).Nodup := by
  induction views generalizing before with
  | nil => exact .pure (by simp)
  | cons v after ih =>
      have hv := hviews v (by simp)
      have hafter : ∀ w ∈ after, w.Exact s := fun w hw => hviews w (List.mem_cons_of_mem v hw)
      have hexact : ∀ w ∈ before ++ after, w.Exact s := fun w hw =>
        (List.mem_append.mp hw).elim (hbefore w) (hafter w)
      rw [propagateFrom_cons]
      refine (checks_whenFixed_of_value? hs hv fun x => .forM fun w hw =>
        checks_remove_admits hs (hexact w hw).created x).bind fun _ hne => ?_
      refine (ih (fun w hw => ?_) hafter).weaken fun _ hnodup => ?_
      · rcases List.mem_append.mp hw with hw | hw
        · exact hbefore w hw
        · exact List.mem_singleton.mp hw ▸ hv
      · cases hvalue : s.value? v with
        | none => rwa [List.filterMap_cons_none hvalue]
        | some x =>
            rw [List.filterMap_cons_some hvalue, List.nodup_cons]
            refine ⟨fun hmem => ?_, hnodup⟩
            obtain ⟨w, hw, hwx⟩ := List.mem_filterMap.mp hmem
            obtain ⟨a, ha, hne⟩ := hne x hvalue w (List.mem_append.mpr (.inr hw))
            exact hne ((Store.value?_eq_some_iff hs (hafter w hw)).mp hwx a ha)

theorem Linear.propagate_of_isViolated {terms : List Term} {rhs : Int}
    (h : isViolated terms rhs s = true) : propagate terms rhs s = .error .conflict s := by
  rw [propagate_apply]
  exact if_pos (by simpa [isViolated] using h)

namespace Rule

variable {r : Rule}

/-- The rule has a test of its own. -/
def HasTest : Rule → Prop
  | conjunction _ | disjunction _ | notEqual _ _ | less _ _ _ | linear _ _ | allDifferent _ => True
  | _ => False

/-- Where the test is positive, propagating does not succeed. -/
theorem ne_ok_of_isViolated (hs : s.Proper) (hr : r.Readable s) (htest : r.HasTest)
    (h : r.isViolated s = .ok true s) : r.propagate s ≠ .ok () t := by
  cases r with
  | conjunction literals => exact (Conjunction.checks_of_isViolated hs hr (eq_of_ask h)).ne_ok
  | disjunction literals => exact (Disjunction.checks_of_isViolated hs hr (eq_of_ask h)).ne_ok
  | notEqual v w =>
      exact (NotEqual.checks_of_isViolated hs (hr v (by simp [Rule.views]))
        (hr w (by simp [Rule.views])) (eq_of_ask h)).ne_ok
  | less v w orEqual =>
      exact (Less.checks_of_isViolated hs (hr v (by simp [Rule.views]))
        (hr w (by simp [Rule.views])) (eq_of_ask h)).ne_ok
  | linear terms rhs =>
      intro hrun
      have hconflict := Linear.propagate_of_isViolated (eq_of_ask h)
      exact absurd (hconflict.symm.trans hrun) (by simp)
  | allDifferent views =>
      have hnodup : Checks s (AllDifferent.propagate views) fun _ => (views.filterMap s.value?).Nodup :=
        AllDifferent.checks_nodup hs (by simp) hr
      exact Checks.ne_ok (hnodup.weaken fun _ => (AllDifferent.hasRepeat_iff _).mp (eq_of_ask h))
  | _ => exact htest.elim

/-! ## A negative test over fixed views -/

theorem less_of_not_isViolated {orEqual : Bool} (hv : v.Exact s) (ha : s.Admits a)
    (hvalue : s.value? v = some (v.eval a)) (hvalue' : s.value? w = some (w.eval a))
    (hmax : v.eval a < word64.max) (h : Less.isViolated v w orEqual s = false) :
    (less v w orEqual).Holds a := by
  obtain ⟨-, hlower⟩ := Store.value?_eq_some.mp hvalue
  obtain ⟨hfixed, hupper⟩ := Store.value?_eq_some.mp hvalue'
  rw [← s.upperBound_eq_of_isFixed hfixed] at hupper
  have hnot : ¬ s.upperBound w < word64.clamp (s.lowerBound v + Less.gap orEqual) :=
    of_decide_eq_false h
  -- the first value may grow by one without leaving the range
  have hfits : word64.Fits (v.eval a + Less.gap orEqual) := by
    have := hv.fits_eval ha
    cases orEqual <;> simp only [Word.Fits, Less.gap] at this ⊢ <;> constructor <;> simp <;> omega
  rw [hlower, hupper, Word.clamp_of_fits hfits] at hnot
  exact less_holds_iff.mpr (not_lt.mp hnot)

theorem linear_of_not_isViolated {terms : List Linear.Term} {rhs : Int} (hs : s.Proper)
    (hterms : ∀ t ∈ terms, t.2.Exact s) (hsmall : (linear terms rhs).Small s) (ha : s.Admits a)
    (hvalue : ∀ t ∈ terms, s.value? t.2 = some (t.2.eval a))
    (h : Linear.isViolated terms rhs s = false) : (linear terms rhs).Holds a := by
  have hfixed : ∀ t ∈ terms, s.isFixed t.2 = true := fun t ht =>
    (Store.value?_eq_some.mp (hvalue t ht)).1
  have hsum : Linear.accumulate (terms.map (Linear.told s)) = rhs := by
    simpa [Linear.isViolated_of_isFixed hfixed] using h
  have htold : terms.map (Linear.told s) = terms.map (Linear.value a) :=
    List.map_congr_left fun t ht => by
      rw [Linear.told, Linear.value, (Store.value?_eq_some.mp (hvalue t ht)).2]
  have hclamped : Linear.clampedSum a terms = rhs := by
    rw [← hsum, htold, Linear.accumulate, List.foldl_map]
    rfl
  rw [Holds, ← Linear.clampedSum_eq hs hterms ha hsmall.magnitudes, hclamped]

/-- Over fixed views below the end of the range, a rule that is not found violated holds. -/
theorem holds_of_not_isViolated (hs : s.Proper) (hr : r.Readable s) (hsmall : r.Small s)
    (htest : r.HasTest) (hfixed : ∀ v ∈ r.views, ∃ x, s.value? v = some x ∧ x < word64.max)
    (h : r.isViolated s = .ok false s) (ha : s.Admits a) : r.Holds a := by
  have hisFixed : ∀ v ∈ r.views, s.isFixed v = true := fun v hv => by
    obtain ⟨x, hx, -⟩ := hfixed v hv
    exact (Store.value?_eq_some.mp hx).1
  have hvalue : ∀ {v}, v.Exact s → v ∈ r.views → s.value? v = some (v.eval a) := fun hv hmem => by
    obtain ⟨x, hx, -⟩ := hfixed _ hmem
    rw [hx, (Store.value?_eq_some_iff hs hv).mp hx a ha]
  cases r with
  | conjunction literals =>
      intro v hv
      have hfalse : s.isFalse v = false := by simpa using List.any_eq_false.mp (eq_of_ask h) v hv
      exact Store.eval_ne_zero_of_isFixed hs (hr v hv) (hisFixed v hv) hfalse ha
  | disjunction literals =>
      obtain ⟨v, hv, hfalse⟩ := List.all_eq_false.mp (eq_of_ask h)
      exact ⟨v, hv, Store.eval_ne_zero_of_isFixed hs (hr v hv) (hisFixed v hv) (by simpa using hfalse) ha⟩
  | notEqual v w =>
      have hv := hvalue (hr v (by simp [Rule.views])) (by simp [Rule.views])
      have hw := hvalue (hr w (by simp [Rule.views])) (by simp [Rule.views])
      have hne := eq_of_ask h
      simpa [Holds, NotEqual.isViolated, hv, hw] using hne
  | less v w orEqual =>
      have hexact := hr v (by simp [Rule.views])
      have hv := hvalue hexact (by simp [Rule.views])
      have hw := hvalue (hr w (by simp [Rule.views])) (by simp [Rule.views])
      obtain ⟨x, hx, hmax⟩ := hfixed v (by simp [Rule.views])
      obtain rfl := Option.some.inj (hv.symm.trans hx)
      exact less_of_not_isViolated hexact ha hv hw hmax (eq_of_ask h)
  | linear terms rhs =>
      have hterms : ∀ t ∈ terms, t.2.Exact s := fun t ht => hr t.2 (List.mem_map_of_mem ht)
      exact linear_of_not_isViolated hs hterms hsmall ha
        (fun t ht => hvalue (hterms t ht) (List.mem_map_of_mem ht)) (eq_of_ask h)
  | allDifferent views =>
      have hmap : views.filterMap s.value? = views.map (View.eval a) := by
        rw [← List.filterMap_eq_map]
        exact List.filterMap_congr fun v hv => hvalue (hr v hv) hv
      have hrepeat := mt (AllDifferent.hasRepeat_iff _).mpr (Bool.eq_false_iff.mp (eq_of_ask h))
      rw [hmap, not_not] at hrepeat
      exact hrepeat
  | _ => exact htest.elim

/-! ## The condition -/

/-- Unless it overflows, propagating only loses values. -/
theorem propagate_outcome (hs : s.Proper) (hr : r.Readable s) :
    match r.propagate s with
    | .ok _ t => s.Narrows t
    | .error .conflict t => s.Narrows t
    | .error .overflow _ => ¬ r.Small s := by
  have hprunes : Prunes s (fun _ => False) (r.Small s) r.propagate fun _ => True :=
    prunes hs hr fun _ h => h.elim
  have hrun := hprunes s ⟨.refl, fun _ h => h.elim⟩
  match hpropagate : r.propagate s, hrun with
  | .ok _ t, hrun => exact hrun.1.narrows
  | .error .conflict t, hrun => exact hrun.1
  | .error .overflow t, hrun => exact hrun

/-- A condition becomes false only where no valuation is left under which the rule holds. -/
theorem not_holds_of_isFalse {c : View} (hs : s.Proper) (hr : r.Readable s) (hsmall : r.Small s)
    (hc : c.Created s) (hrun : Propagator.propagate ⟨r, some c⟩ s = .ok () t)
    (hbefore : s.isFalse c = false) (hafter : t.isFalse c = true) (ha : s.Admits a) :
    ¬ r.Holds a := by
  obtain ⟨violated, htest, hexcludes⟩ := tests hs hr
  simp only [Propagator.propagate, bind_apply, ask, hbefore, Bool.false_eq_true, if_false] at hrun
  by_cases htrue : s.isTrue c = true
  · -- a true condition cannot become false
    rw [if_pos htrue] at hrun
    have hst := propagate_outcome hs hr
    rw [hrun] at hst
    have ht := Store.admits_least (hst.proper hs)
    refine absurd ((Store.isFalse_iff (hst.proper hs) ?_).mp hafter _ ht) ?_
    · exact hc.mono hst.numVariables_eq.ge
    · exact (Store.isTrue_iff hs hc).mp htrue _ (hst.admits ht)
  · rw [if_neg htrue, bind_apply, htest] at hrun
    cases violated with
    | true => exact fun hholds => hexcludes rfl a ha ⟨hsmall, hholds⟩
    | false =>
        obtain rfl : s = t := (EStateM.Result.ok.inj hrun).2
        exact absurd hafter (Bool.eq_false_iff.mp hbefore)

/-! ## Agreement -/

/-- A rule with a test of its own leaves the store alone when it is tested. If the test is positive,
propagating ends in a conflict; if it is negative and all views are fixed below the end of the
range, propagating succeeds. A condition put on the rule becomes false only where no valuation is
left under which the rule holds. -/
theorem test_agrees (hs : s.Proper) (hr : r.Readable s) (hsmall : r.Small s) (htest : r.HasTest) :
    ∃ violated, r.isViolated s = .ok violated s ∧
      (violated = true → ∃ t, r.propagate s = .error .conflict t) ∧
      ((∀ v ∈ r.views, ∃ x, s.value? v = some x ∧ x < word64.max) → violated = false →
        ∃ t, r.propagate s = .ok () t) ∧
      ∀ c t, c.Created s → Propagator.propagate ⟨r, some c⟩ s = .ok () t → s.isFalse c = false →
        t.isFalse c = true → ∀ a, s.Admits a → ¬ r.Holds a := by
  obtain ⟨violated, hrun, -⟩ := tests hs hr
  refine ⟨violated, hrun, fun hviolated => ?_, fun hfixed hviolated => ?_, ?_⟩
  · subst hviolated
    match hpropagate : r.propagate s, propagate_outcome hs hr with
    | .ok _ t, _ => exact absurd hpropagate (ne_ok_of_isViolated hs hr htest hrun)
    | .error .conflict t, _ => exact ⟨t, rfl⟩
    | .error .overflow t, hlarge => exact absurd hsmall hlarge
  · subst hviolated
    have hholds := holds_of_not_isViolated hs hr hsmall htest hfixed hrun (Store.admits_least hs)
    have hprunes : Prunes s (· = s.least) (r.Small s) r.propagate fun _ => True :=
      prunes hs hr fun a ha => ha ▸ ⟨Store.admits_least hs, hsmall, hholds⟩
    match hpropagate : r.propagate s, hprunes s ⟨.refl, fun a ha => ha ▸ Store.admits_least hs⟩ with
    | .ok _ t, _ => exact ⟨t, rfl⟩
    | .error .conflict t, hnone => exact absurd rfl (hnone.2 s.least)
    | .error .overflow t, hlarge => exact absurd hsmall hlarge
  · exact fun c t hc hpropagate hbefore hafter a ha =>
      not_holds_of_isFalse hs hr hsmall hc hpropagate hbefore hafter ha

/-- The number 3, and a truth value. -/
def threeAndChoice : Store where
  sets := #[.interval 3 3, .interval 0 1]

/-- The number 3 twice, through two views of one variable. -/
def threeTwice : Rule := .allDifferent [.ofVar 0, .affine 0 true 6]

/-- The two views are found to be equal, and the condition is made false for good reason. -/
theorem test_agrees_threeTwice : (∃ t, threeTwice.propagate threeAndChoice = .error .conflict t) ∧
    ∀ a, threeAndChoice.Admits a → ¬ threeTwice.Holds a := by
  have hs : threeAndChoice.Proper := Store.proper_of_intervals [(3, 3), (0, 1)] (by decide)
  have hr : threeTwice.Readable threeAndChoice := by
    intro v hv
    simp only [threeTwice, views, List.mem_cons, List.not_mem_nil, or_false] at hv
    rcases hv with rfl | rfl
    · exact View.exact_ofVar hs (by decide)
    · refine ⟨by decide, fun w hw => ?_⟩
      have hw : 3 ≤ w ∧ w ≤ 3 := ValueSet.mem_interval.mp hw
      simp only [View.raw_affine, if_true, Word.Fits, word64]
      omega
  obtain ⟨violated, htest, hconflict, -, hcondition⟩ := test_agrees hs hr trivial trivial
  obtain rfl : true = violated := (EStateM.Result.ok.inj htest).1
  exact ⟨hconflict rfl, hcondition (.ofVar 1) _ (View.exact_ofVar hs (by decide)).created rfl rfl rfl⟩

/-- The numbers 5 and 7. -/
def twoNumbers : Store where
  sets := #[.interval 5 5, .interval 7 7]

/-- The numbers, each plus the largest offset: both values are moved to the end of the range. -/
def movedNumbers : List View := [.affine 0 false word64.max, .affine 1 false word64.max]

/-- Two different numbers that were moved to the same value are found to be equal, though
propagating accepts them. So a condition on their disequality is made false without need. -/
theorem movedNumbers_misjudged :
    (allDifferent movedNumbers).isViolated twoNumbers = .ok true twoNumbers ∧
      (allDifferent movedNumbers).propagate twoNumbers = .ok () twoNumbers ∧
      (∀ v ∈ movedNumbers, ∀ w ∈ movedNumbers, v ≠ w →
        (notEqual v w).isViolated twoNumbers = .ok true twoNumbers ∧
        (notEqual v w).propagate twoNumbers = .ok () twoNumbers) ∧
      (allDifferent movedNumbers).Holds twoNumbers.least := by
  refine ⟨rfl, rfl, ?_, by decide⟩
  intro v hv w hw hne
  simp only [movedNumbers, List.mem_cons, List.not_mem_nil, or_false] at hv hw
  rcases hv with rfl | rfl <;> rcases hw with rfl | rfl <;>
    first | exact absurd rfl hne | exact ⟨rfl, rfl⟩

end Rule

end FiniteDomain.Engine
