import FiniteDomain.Proofs.Engine.Rule.Clause
import FiniteDomain.Proofs.Engine.Rule.Distinct
import FiniteDomain.Proofs.Engine.Rule.LinearEquality
import FiniteDomain.Proofs.Engine.Rule.Operation
import FiniteDomain.Proofs.Engine.Rule.Relation

/-!
# What a propagator does

Every rule loses only values that no valuation needs under which it holds, and with all of
its views fixed it checks its constraint. Both carry over to propagators with a condition,
and these two facts are all that the search relies on.

A linear equality is the exception to exactness: it spares valuations only if its terms are
small, and what it checks is the sum as it is accumulated.
-/

namespace FiniteDomain.Engine

open Narrowing

variable {s t : Store} {needed : Valuation → Prop} {a : Valuation}

namespace Rule

variable {r : Rule}

/-- All views of the rule are exact. -/
def Exact (s : Store) (r : Rule) : Prop := ∀ v ∈ r.views, v.Exact s

/-- The rule reads its views as they are: truth values need only be created, while what is compared
or added up has to be exact. -/
def Readable (s : Store) : Rule → Prop
  | conjunction literals => ∀ v ∈ literals, v.Created s
  | disjunction literals => ∀ v ∈ literals, v.Created s
  | parity literals => ∀ v ∈ literals, v.Created s
  | r => r.Exact s

/-- The rule is not a linear equality with large terms. -/
def Small (s : Store) : Rule → Prop
  | linear terms rhs => Linear.Small s terms rhs
  | _ => True

/-- What the rule has checked when it does not fail on fixed views. -/
def Accepts (a : Valuation) : Rule → Prop
  | linear terms rhs => Linear.clampedSum a terms = rhs
  | r => r.Holds a

theorem Exact.readable (h : r.Exact s) : r.Readable s := by
  cases r with
  | conjunction literals => exact fun v hv => (h v hv).created
  | disjunction literals => exact fun v hv => (h v hv).created
  | parity literals => exact fun v hv => (h v hv).created
  | _ => exact h

theorem Readable.created (h : r.Readable s) : ∀ v ∈ r.views, v.Created s := by
  cases r with
  | conjunction literals => exact h
  | disjunction literals => exact h
  | parity literals => exact h
  | _ => exact fun v hv => (h v hv).created

theorem Readable.mono (h : r.Readable s) (hts : t ≤ s) : r.Readable t := by
  have hsize := (Store.numVariables_eq_of_le hts).ge
  cases r with
  | conjunction literals => exact fun v hv => (h v hv).mono hsize
  | disjunction literals => exact fun v hv => (h v hv).mono hsize
  | parity literals => exact fun v hv => (h v hv).mono hsize
  | _ => exact fun v hv => (h v hv).mono hts

theorem Readable.extend (h : r.Readable s) (hst : s.Extends t) : r.Readable t := by
  cases r with
  | conjunction literals => exact fun v hv => (h v hv).mono hst.numVariables_le
  | disjunction literals => exact fun v hv => (h v hv).mono hst.numVariables_le
  | parity literals => exact fun v hv => (h v hv).mono hst.numVariables_le
  | _ => exact fun v hv => (h v hv).extend hst

theorem Small.mono (h : r.Small s) (hs : s.Proper) (ht : t.Proper) (hr : r.Readable s)
    (hts : t ≤ s) : r.Small t := by
  cases r with
  | linear terms rhs =>
      exact Linear.Small.mono h hs ht (fun u hu => hr u.2 (List.mem_map_of_mem hu)) hts
  | _ => trivial

theorem Small.of_sets (h : r.Small s) (hst : t.sets = s.sets) : r.Small t := by
  cases r with
  | linear terms rhs => exact Linear.Small.of_sets h hst
  | _ => trivial

theorem small_extend_iff (hr : r.Readable s) (hst : s.Extends t) : r.Small t ↔ r.Small s := by
  cases r with
  | linear terms rhs =>
      exact Linear.small_extend_iff (fun u hu => hr u.2 (List.mem_map_of_mem hu)) hst
  | _ => exact Iff.rfl

theorem less_holds_iff {v w : View} {orEqual : Bool} :
    (less v w orEqual).Holds a ↔ v.eval a + Less.gap orEqual ≤ w.eval a := by
  cases orEqual with
  | false => exact Int.add_one_le_iff.symm
  | true => simp [Holds, Less.gap]

/-- A small rule accepts the valuations under which it holds. -/
theorem accepts_iff_holds (hs : s.Proper) (hr : r.Readable s) (ha : s.Admits a)
    (hsmall : r.Small s) : r.Accepts a ↔ r.Holds a := by
  cases r with
  | linear terms rhs =>
      rw [Accepts, Holds, Linear.clampedSum_eq hs (fun u hu => hr u.2 (List.mem_map_of_mem hu)) ha
        hsmall.magnitudes]
  | _ => rfl

/-- A rule that is no linear equality accepts the valuations under which it holds. -/
theorem accepts_iff (h : ∀ terms rhs, r ≠ linear terms rhs) : r.Accepts a ↔ r.Holds a := by
  cases r with
  | linear terms rhs => exact absurd rfl (h terms rhs)
  | _ => rfl

/-- A rule depends on the values of its views only. -/
theorem Accepts.congr {b : Valuation} (h : r.Accepts a) (hviews : ∀ v ∈ r.views, v.eval a = v.eval b) :
    r.Accepts b := by
  cases r with
  | conjunction literals => exact fun v hv => hviews v hv ▸ h v hv
  | disjunction literals =>
      obtain ⟨v, hv, hne⟩ := h
      exact ⟨v, hv, hviews v hv ▸ hne⟩
  | parity literals =>
      have hcount : literals.countP (fun v => v.eval a != 0) =
          literals.countP fun v => v.eval b != 0 :=
        List.countP_congr fun v hv => by simp [hviews v hv]
      exact (congrArg (· % 2) hcount).symm.trans h
  | linear terms rhs =>
      refine Eq.trans (List.foldl_ext _ _ _ fun sum t ht => ?_) h
      rw [Linear.value, Linear.value, hviews t.2 (List.mem_map_of_mem ht)]
  | allDifferent views =>
      have hmap : views.map (View.eval a) = views.map (View.eval b) :=
        List.map_congr_left hviews
      have hnodup : (views.map (View.eval a)).Nodup := h
      rw [hmap] at hnodup
      exact hnodup
  | less v w orEqual =>
      simp only [views, List.forall_mem_cons] at hviews
      simpa only [Accepts, less_holds_iff, hviews] using h
  | _ =>
      simp only [views, List.forall_mem_cons] at hviews
      simpa only [Accepts, Holds, hviews] using h

theorem Holds.congr {b : Valuation} (h : r.Holds a) (hviews : ∀ v ∈ r.views, v.eval a = v.eval b) :
    r.Holds b := by
  cases r with
  | linear terms rhs =>
      have hsum : Linear.sum a terms = Linear.sum b terms := by
        rw [Linear.sum_eq, Linear.sum_eq]
        refine congrArg List.sum (List.map_congr_left fun t ht => ?_)
        rw [Linear.value, Linear.value, hviews t.2 (List.mem_map_of_mem ht)]
      exact hsum.symm.trans h
  | _ => exact (accepts_iff (by simp)).mp (((accepts_iff (by simp)).mpr h).congr hviews)

theorem prunes (hs : s.Proper) (hr : r.Readable s)
    (hneeded : ∀ a, needed a → s.Admits a ∧ r.Small s ∧ r.Holds a) :
    Prunes s needed (r.Small s) r.propagate fun _ => True := by
  have hadmits : ∀ a, needed a → s.Admits a := fun a ha => (hneeded a ha).1
  have hholds : ∀ a, needed a → r.Holds a := fun a ha => (hneeded a ha).2.2
  cases r with
  | conjunction literals => exact Conjunction.prunes hs hr hholds
  | disjunction literals => exact Disjunction.prunes hs hr hholds
  | parity literals => exact Parity.prunes hs hr hholds
  | equal v w => exact Equal.prunes hs (hr v (by simp [views])) (hr w (by simp [views])) hholds
  | notEqual v w =>
      exact NotEqual.prunes hs (hr v (by simp [views])) (hr w (by simp [views])) hholds
  | less v w orEqual =>
      exact Less.prunes hs (hr v (by simp [views])) (hr w (by simp [views])) hadmits
        fun a ha => less_holds_iff.mp (hholds a ha)
  | linear terms rhs =>
      exact Linear.prunes hs (fun u hu => hr u.2 (List.mem_map_of_mem hu)) hneeded
  | allDifferent views => exact AllDifferent.prunes hs hr hholds
  | absolute v w =>
      exact Absolute.prunes hs (hr v (by simp [views])) (hr w (by simp [views])) hadmits hholds
  | operation operator v w result =>
      exact Operation.prunes hs (hr v (by simp [views])) (hr w (by simp [views]))
        (hr result (by simp [views])) hadmits hholds

theorem tests (hs : s.Proper) (hr : r.Readable s) :
    Tests s r.isViolated fun a => r.Small s ∧ r.Holds a := by
  have weaken : ∀ {test : Narrowing Bool} {excluded : Valuation → Prop},
      Tests s test excluded → (∀ a, r.Small s ∧ r.Holds a → excluded a) →
        Tests s test fun a => r.Small s ∧ r.Holds a :=
    fun ⟨b, hb, hex⟩ himp => ⟨b, hb, fun htrue a ha h => hex htrue a ha (himp a h)⟩
  cases r with
  | conjunction literals => exact weaken (Conjunction.tests hs hr) fun _ h => h.2
  | disjunction literals => exact weaken (Disjunction.tests hs hr) fun _ h => h.2
  | parity literals => exact weaken (Parity.tests hs hr) fun _ h => h.2
  | equal v w =>
      exact weaken (Equal.tests hs (hr v (by simp [views])) (hr w (by simp [views])))
        fun _ h => h.2
  | notEqual v w =>
      exact weaken (NotEqual.tests hs (hr v (by simp [views])) (hr w (by simp [views])))
        fun _ h => h.2
  | less v w orEqual =>
      exact weaken (Less.tests hs (hr v (by simp [views])) (hr w (by simp [views])))
        fun _ h => less_holds_iff.mp h.2
  | linear terms rhs =>
      exact weaken (Linear.tests hs fun u hu => hr u.2 (List.mem_map_of_mem hu)) fun _ h => h
  | allDifferent views => exact weaken (AllDifferent.tests hs hr) fun _ h => h.2
  | absolute v w =>
      exact weaken (Absolute.tests hs (hr v (by simp [views])) (hr w (by simp [views])))
        fun _ h => h.2
  | operation operator v w result =>
      exact weaken (Operation.tests hs (hr v (by simp [views])) (hr w (by simp [views]))
        (hr result (by simp [views]))) fun _ h => h.2

theorem checks (hs : s.Proper) (hr : r.Readable s)
    (hfixed : ∀ v ∈ r.views, ∀ b, s.Admits b → v.eval b = v.eval a) (ha : s.Admits a) :
    Checks s r.propagate fun _ => r.Accepts a := by
  have hpinned : ∀ v ∈ r.views, Pinned s a v := fun v hv => ⟨hr.created v hv, hfixed v hv⟩
  have hview : r.Exact s → ∀ v ∈ r.views, FixedTo s a v := fun hr v hv => ⟨hr v hv, hfixed v hv⟩
  cases r with
  | conjunction literals => exact Conjunction.checks hs hpinned
  | disjunction literals => exact Disjunction.checks hs hpinned
  | parity literals => exact Parity.checks hs hpinned
  | equal v w =>
      exact Equal.checks hs (hview hr v (by simp [views])) (hview hr w (by simp [views]))
  | notEqual v w =>
      exact NotEqual.checks hs (hview hr v (by simp [views])) (hview hr w (by simp [views]))
  | less v w orEqual =>
      exact (Less.checks hs (hview hr v (by simp [views])) (hview hr w (by simp [views])) ha).weaken
        fun _ h => less_holds_iff.mpr h
  | linear terms rhs => exact Linear.checks hs fun u hu => hview hr u.2 (List.mem_map_of_mem hu)
  | allDifferent views => exact AllDifferent.checks hs (hview hr)
  | absolute v w =>
      exact Absolute.checks hs (hview hr v (by simp [views])) (hview hr w (by simp [views])) ha
  | operation operator v w result =>
      exact Operation.checks hs (hview hr v (by simp [views])) (hview hr w (by simp [views]))
        (hview hr result (by simp [views]))

end Rule

namespace Propagator

variable {p : Propagator}

/-- All views of the propagator are exact. -/
def Exact (s : Store) (p : Propagator) : Prop := ∀ v ∈ p.views, v.Exact s

/-- The propagator reads its views as they are; the condition is a truth value. -/
structure Readable (s : Store) (p : Propagator) : Prop where
  rule : p.rule.Readable s
  condition : ∀ c, p.condition = some c → c.Created s

/-- The rule is not a linear equality with large terms. -/
def Small (s : Store) (p : Propagator) : Prop := p.rule.Small s

/-- What the propagator has checked when it does not fail on fixed views. -/
def Accepts (a : Valuation) (p : Propagator) : Prop :=
  match p.condition with
  | none => p.rule.Accepts a
  | some condition => condition.eval a ≠ 0 → p.rule.Accepts a

theorem Exact.rule (h : p.Exact s) : p.rule.Exact s := fun v hv => h v (List.mem_append.mpr (.inl hv))

theorem Exact.condition {v : View} (h : p.Exact s) (hv : p.condition = some v) : v.Exact s :=
  h v (by simp [views, hv])

theorem Exact.mono (h : p.Exact s) (hts : t ≤ s) : p.Exact t := fun v hv => (h v hv).mono hts

theorem Exact.readable (h : p.Exact s) : p.Readable s where
  rule := h.rule.readable
  condition := fun _ hc => (h.condition hc).created

theorem Readable.created (h : p.Readable s) : ∀ v ∈ p.views, v.Created s := fun v hv =>
  (List.mem_append.mp hv).elim (h.rule.created v) fun hv => h.condition v (by simpa using hv)

theorem Readable.mono (h : p.Readable s) (hts : t ≤ s) : p.Readable t where
  rule := h.rule.mono hts
  condition := fun c hc => (h.condition c hc).mono (Store.numVariables_eq_of_le hts).ge

theorem Readable.extend (h : p.Readable s) (hst : s.Extends t) : p.Readable t where
  rule := h.rule.extend hst
  condition := fun c hc => (h.condition c hc).mono hst.numVariables_le

theorem Readable.small_mono (hp : p.Readable s) (h : p.Small s) (hs : s.Proper) (ht : t.Proper)
    (hts : t ≤ s) : p.Small t :=
  Rule.Small.mono h hs ht hp.rule hts

theorem Small.mono (h : p.Small s) (hs : s.Proper) (ht : t.Proper) (hp : p.Exact s) (hts : t ≤ s) :
    p.Small t :=
  hp.readable.small_mono h hs ht hts

theorem Small.of_sets (h : p.Small s) (hst : t.sets = s.sets) : p.Small t :=
  Rule.Small.of_sets h hst

theorem Exact.extend (h : p.Exact s) (hst : s.Extends t) : p.Exact t :=
  fun v hv => (h v hv).extend hst

theorem Readable.small_extend_iff (hp : p.Readable s) (hst : s.Extends t) : p.Small t ↔ p.Small s :=
  Rule.small_extend_iff hp.rule hst

theorem small_extend_iff (hp : p.Exact s) (hst : s.Extends t) : p.Small t ↔ p.Small s :=
  hp.readable.small_extend_iff hst

theorem Readable.accepts_iff_holds (hp : p.Readable s) (hs : s.Proper) (ha : s.Admits a)
    (hsmall : p.Small s) : p.Accepts a ↔ p.Holds a := by
  have hrule := Rule.accepts_iff_holds hs hp.rule ha hsmall
  rw [Accepts, Holds]
  cases p.condition with
  | none => exact hrule
  | some condition => exact imp_congr_right fun _ => hrule

theorem accepts_iff_holds (hs : s.Proper) (hp : p.Exact s) (ha : s.Admits a) (hsmall : p.Small s) :
    p.Accepts a ↔ p.Holds a :=
  hp.readable.accepts_iff_holds hs ha hsmall

theorem Accepts.congr {b : Valuation} (h : p.Accepts a)
    (hviews : ∀ v ∈ p.views, v.eval a = v.eval b) : p.Accepts b := by
  have hrule : p.rule.Accepts a → p.rule.Accepts b := fun h =>
    h.congr fun v hv => hviews v (List.mem_append.mpr (.inl hv))
  rw [Accepts] at h ⊢
  cases hcond : p.condition with
  | none => exact hrule (by simpa [hcond] using h)
  | some condition =>
      simp only [hcond] at h
      exact fun hne => hrule (h (hviews condition (by simp [views, hcond]) ▸ hne))

theorem Holds.congr {b : Valuation} (h : p.Holds a) (hviews : ∀ v ∈ p.views, v.eval a = v.eval b) :
    p.Holds b := by
  have hrule : p.rule.Holds a → p.rule.Holds b := fun h =>
    h.congr fun v hv => hviews v (List.mem_append.mpr (.inl hv))
  rw [Holds] at h ⊢
  cases hcond : p.condition with
  | none => exact hrule (by simpa [hcond] using h)
  | some condition =>
      simp only [hcond] at h
      exact fun hne => hrule (h (hviews condition (by simp [views, hcond]) ▸ hne))

/-- Nothing speaks against the values: the propagator has checked them, or it holds over the
integers. These are the same unless a sum is too large. -/
def Passes (a : Valuation) (p : Propagator) : Prop := p.Accepts a ∨ p.Holds a

theorem Passes.congr {b : Valuation} (h : p.Passes a)
    (hviews : ∀ v ∈ p.views, v.eval a = v.eval b) : p.Passes b :=
  h.imp (·.congr hviews) (·.congr hviews)

theorem passes_iff_holds (hs : s.Proper) (hp : p.Exact s) (ha : s.Admits a) (hsmall : p.Small s) :
    p.Passes a ↔ p.Holds a := by
  rw [Passes, accepts_iff_holds hs hp ha hsmall, or_self]

/-- A rule that is checked exactly holds. -/
theorem Passes.holds (h : p.Passes a) (hrule : p.rule.Accepts a ↔ p.rule.Holds a) : p.Holds a := by
  refine h.elim (fun haccepts => ?_) id
  rw [Accepts] at haccepts
  rw [Holds]
  cases hcond : p.condition with
  | none => exact hrule.mp (by simpa [hcond] using haccepts)
  | some condition =>
      simp only [hcond] at haccepts
      exact fun hne => hrule.mp (haccepts hne)

/-- No value is lost that is needed by a valuation under which the propagator holds. -/
theorem Readable.prunes (hp : p.Readable s) (hs : s.Proper) :
    Prunes s (fun a => s.Admits a ∧ p.Small s ∧ p.Holds a) (p.Small s) p.propagate
      fun _ => True := by
  have hrule : ∀ needed, (∀ a, needed a → s.Admits a ∧ p.rule.Small s ∧ p.rule.Holds a) →
      Prunes s needed (p.Small s) p.rule.propagate fun _ => True :=
    fun _ h => Rule.prunes hs hp.rule h
  rw [propagate]
  cases hcond : p.condition with
  | none =>
      refine hrule _ fun a ha => ⟨ha.1, ha.2.1, ?_⟩
      simpa [Holds, hcond] using ha.2.2
  | some condition =>
      have hcv := hp.condition condition hcond
      have hholds : ∀ a, p.Holds a ↔ (condition.eval a ≠ 0 → p.rule.Holds a) := fun a => by
        simp [Holds, hcond]
      simp only [hholds]
      refine Obeys.bind (p := fun _ => True) (.ask fun _ _ => trivial) fun _ _ => ?_
      split
      · exact .pure trivial
      refine Obeys.bind (p := fun b => b = true → ∀ a, s.Admits a ∧ p.Small s ∧
          (condition.eval a ≠ 0 → p.rule.Holds a) → condition.eval a ≠ 0)
        (.ask fun t ht htrue a ha => ?_) fun isTrue hisTrue => ?_
      · have hcv' := hcv.mono ht.narrows.numVariables_eq.ge
        exact (Store.isTrue_iff (ht.narrows.proper hs) hcv').mp htrue a (ht.admits a ha)
      split
      · next h => exact hrule _ fun a ha => ⟨ha.1, ha.2.1, ha.2.2 (hisTrue h a ha)⟩
      -- the test leaves the store alone, so a positive answer excludes what it still admits
      refine Obeys.bind (p := fun b => b = true → ∀ a, s.Admits a ∧ p.Small s ∧
          (condition.eval a ≠ 0 → p.rule.Holds a) → condition.eval a = 0) ?_ fun violated hviolated => ?_
      · intro t ht
        have hpt := (hp.mono ht.narrows.le).rule
        obtain ⟨b, hb, hex⟩ := Rule.tests (ht.narrows.proper hs) hpt
        rw [hb]
        refine ⟨ht, fun hbt a ha => ?_⟩
        by_contra hne
        have hsmall := Rule.Small.mono ha.2.1 hs (ht.narrows.proper hs) hp.rule ht.narrows.le
        exact hex hbt a (ht.admits a ha) ⟨hsmall, ha.2.2 hne⟩
      split
      · next h => exact prunes_fix hs hcv (hviolated h)
      · exact .pure trivial

theorem prunes (hs : s.Proper) (hp : p.Exact s) :
    Prunes s (fun a => s.Admits a ∧ p.Small s ∧ p.Holds a) (p.Small s) p.propagate
      fun _ => True :=
  hp.readable.prunes hs

/-- On fixed views the propagator fails, or it has checked its constraint. -/
theorem Readable.checks (hp : p.Readable s) (hs : s.Proper)
    (hfixed : ∀ v ∈ p.views, ∀ b, s.Admits b → v.eval b = v.eval a) (ha : s.Admits a) :
    Checks s p.propagate fun _ => p.Accepts a := by
  have hrule : Checks s p.rule.propagate fun _ => p.rule.Accepts a :=
    Rule.checks hs hp.rule (fun v hv => hfixed v (List.mem_append.mpr (.inl hv))) ha
  rw [propagate]
  cases hcond : p.condition with
  | none => exact hrule.weaken fun _ h => by simpa [Accepts, hcond] using h
  | some condition =>
      have hcv : Pinned s a condition :=
        ⟨hp.condition condition hcond, hfixed condition (by simp [views, hcond])⟩
      have haccepts : p.Accepts a ↔ (condition.eval a ≠ 0 → p.rule.Accepts a) := by
        simp [Accepts, hcond]
      rw [haccepts]
      refine Obeys.bind (p := fun b => b = true ↔ condition.eval a = 0)
        (.ask fun t ht => hcv.isFalse_iff hs ht) fun isFalse hisFalse => ?_
      split
      · next h => exact .pure fun hne => absurd (hisFalse.mp h) hne
      · next hfalse =>
        refine Obeys.bind (p := fun b => b = true ↔ condition.eval a ≠ 0)
          (.ask fun t ht => hcv.isTrue_iff hs ht) fun isTrue hisTrue => ?_
        split
        · exact hrule.weaken fun _ h _ => h
        · next htrue => exact absurd (hisFalse.mpr (by simpa using mt hisTrue.mpr htrue)) hfalse

theorem checks (hs : s.Proper) (hp : ∀ v ∈ p.views, FixedTo s a v) (ha : s.Admits a) :
    Checks s p.propagate fun _ => p.Accepts a :=
  (Exact.readable fun v hv => (hp v hv).exact).checks hs (fun v hv => (hp v hv).eval_eq) ha

end Propagator

end FiniteDomain.Engine
