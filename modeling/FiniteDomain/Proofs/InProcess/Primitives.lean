import FiniteDomain.Proofs.InProcess.Meeting

/-!
# Posting a constraint that has a propagator

From any state between two calls a constraint with a propagator meets its variables, and then posts
the propagator. The exceptions are implications that are not reified, which are refused before
or after the variable of the antecedent is met, and sums with too few or too many weights.
-/

namespace FiniteDomain.InProcess

open Engine (View Rule Propagator Running)

variable {s s₁ s₂ : Lowering.State InProcess} {xs ys : List Variable} {small small' : Prop}
  {r : EStateM.Result Stop (Lowering.State InProcess) Unit} {p : Propagator} {c a : Constraint}
  {e result lhs rhs : Expr} {event : Event}

/-! ## Posting a propagator -/

/-- The variables are met, and a propagator for views of them is posted, which is bounded if the
constraint is small. -/
def Posting (xs : List Variable) (small : Prop) (s : Lowering.State InProcess)
    (r : EStateM.Result Stop (Lowering.State InProcess) Unit) : Prop :=
  ∃ s₁ p, Meets xs s s₁ ∧ p.Created s₁.backend.engine.store ∧ (small → p.Bounded) ∧
    r = onEngine (Running.post p) s₁

theorem posting_note (hmeets : Meets xs s s₁) (hp : p.Created s₁.backend.engine.store)
    (hbounded : small → p.Bounded) :
    Posting xs small s ((do Lowering.note event; onEngine (Running.post p)) s₁) :=
  ⟨{ s₁ with journal := s₁.journal.push event }, p, hmeets.of_backend rfl, hp, hbounded, rfl⟩

theorem Posting.after (h : Posting ys small s₁ r) (hmeets : Meets xs s s₁) :
    Posting (xs ++ ys) small s r := by
  obtain ⟨s₂, p, hmeets', hp, hbounded, rfl⟩ := h
  exact ⟨s₂, p, hmeets.trans hmeets', hp, hbounded, rfl⟩

theorem Posting.weaken (h : Posting xs small s r) (hle : ys ⊆ xs) (himp : small' → small) :
    Posting ys small' s r := by
  obtain ⟨s₁, p, hmeets, hp, hbounded, rfl⟩ := h
  exact ⟨s₁, p, hmeets.subset hle, hp, hbounded ∘ himp, rfl⟩

theorem created_of_views {store : Engine.Store} {rule : Rule} {condition : Option View}
    (hrule : ∀ v ∈ rule.views, v.Created store) (hcondition : ∀ v ∈ condition, v.Created store) :
    ({ rule, condition } : Propagator).Created store :=
  List.forall_mem_append.mpr ⟨hrule, fun v hv => hcondition v (Option.mem_toList.mp hv)⟩

/-! ## Rules over atoms -/

section Atoms

variable {condition : Option View} (hs : Ready s)
  (hcondition : ∀ v ∈ condition, v.Created s.backend.engine.store)

include hs

theorem posting_connective {kind : Connective} {args : List Constraint}
    (hargs : ∀ d ∈ args, d.isAtom = true)
    (hcondition : ∀ v ∈ condition, v.Created s.backend.engine.store) :
    Posting (Constraint.occurrencesIn args) True s (postConnective kind args condition s) := by
  obtain ⟨literals, s₁, hrun, hmeets, hliterals⟩ := exists_literalsOf hs hargs
  rw [postConnective, bind_ok hrun]
  refine (posting_note hmeets (created_of_views ?_ ?_) ?_).weaken (fun x hx => ?_) id
  · cases kind <;> exact hliterals
  · exact fun v hv => (hcondition v hv).mono hmeets.widens.store.numVariables_le
  · cases kind <;> exact fun _ => trivial
  · obtain ⟨d, hd, hx⟩ := Constraint.mem_occurrencesIn.mp hx
    exact List.mem_flatMap.mpr ⟨d, hd, hx⟩

/-- Two views are had one after the other. -/
theorem exists_two (hl : lhs.isAtom = true) (hr : rhs.isAtom = true) : ∃ v w s₁ s₂,
    viewOf lhs s = .ok v s₁ ∧ viewOf rhs s₁ = .ok w s₂ ∧
      Meets (lhs.occurrences ++ rhs.occurrences) s s₂ ∧ Stands s₂ lhs v ∧ Stands s₂ rhs w := by
  obtain ⟨v, s₁, hrun₁, hmeets₁, hv⟩ := exists_viewOf hs hl
  obtain ⟨w, s₂, hrun₂, hmeets₂, hw⟩ := exists_viewOf hmeets₁.ready hr
  exact ⟨v, w, s₁, s₂, hrun₁, hrun₂, hmeets₁.trans hmeets₂, hv.mono hmeets₂.widens, hw⟩

theorem posting_comparison {comparator : Comparator} (hl : lhs.isAtom = true)
    (hr : rhs.isAtom = true) (hcondition : ∀ v ∈ condition, v.Created s.backend.engine.store) :
    Posting (lhs.occurrences ++ rhs.occurrences) True s
      (postComparison comparator lhs rhs condition s) := by
  obtain ⟨v, w, s₁, s₂, hrun₁, hrun₂, hmeets, hv, hw⟩ := exists_two hs hl hr
  rw [postComparison, bind_ok hrun₁, bind_ok hrun₂]
  refine posting_note hmeets (created_of_views ?_ ?_) ?_
  · cases comparator <;> simp [comparisonRule, Rule.views, hv.created, hw.created]
  · exact fun v hv => (hcondition v hv).mono hmeets.widens.store.numVariables_le
  · cases comparator <;> exact fun _ => trivial

theorem posting_operation {operator : Operator} {d : Expr} {negated : Bool}
    (he : e.isAtom = true) (hd : d.isAtom = true) (hresult : result.isAtom = true) :
    Posting (e.occurrences ++ d.occurrences ++ result.occurrences) True s
      (postOperation operator e d negated result s) := by
  obtain ⟨v, w, s₁, s₂, hrun₁, hrun₂, hmeets, hv, hw⟩ := exists_two hs he hd
  obtain ⟨u, s₃, hrun₃, hmeets₃, hu⟩ := exists_viewOf hmeets.ready hresult
  have hw' : (if negated then w.negate else w).Created s₃.backend.engine.store := by
    have hw := (hw.mono hmeets₃.widens).created
    cases negated with
    | false => exact hw
    | true => exact hw.negate
  rw [postOperation, bind_ok hrun₁, bind_ok hrun₂, bind_ok hrun₃]
  refine posting_note (hmeets.trans hmeets₃) (created_of_views ?_ (by simp)) fun _ => trivial
  simp [Rule.views, (hv.mono hmeets₃.widens).created, hw', hu.created]

theorem posting_unary {op : UnaryOp} (he : e.isAtom = true) (hresult : result.isAtom = true) :
    Posting (e.occurrences ++ result.occurrences) True s (postUnary op e result s) := by
  obtain ⟨v, w, s₁, s₂, hrun₁, hrun₂, hmeets, hv, hw⟩ := exists_two hs he hresult
  rw [postUnary, bind_ok hrun₁, bind_ok hrun₂]
  cases op with
  | abs =>
      refine posting_note hmeets (created_of_views ?_ (by simp)) fun _ => trivial
      simp [Rule.views, hv.created, hw.created]
  | neg =>
      refine posting_note hmeets (created_of_views ?_ (by simp)) fun _ => trivial
      simp [Rule.views, hv.created.negate, hw.created]

theorem posting_allDifferent {args : List Expr} (hargs : ∀ e ∈ args, e.isAtom = true) :
    Posting (args.flatMap Expr.occurrences) True s (postAllDifferent args s) := by
  obtain ⟨views, s₁, hrun, hmeets, hviews⟩ := exists_viewsOf hs hargs
  rw [postAllDifferent, bind_ok hrun]
  refine posting_note hmeets (created_of_views (fun v hv => ?_) (by simp)) fun _ => trivial
  obtain ⟨e, -, hv⟩ := exists_related' hviews hv
  exact hv.created

end Atoms

/-! ## Linear equalities -/

/-- Posts a linear equality over views. -/
def postTerms (views : List View) (coefficients : List Int) : Action Unit := do
  match ← onEngine (Running.postLinear views coefficients 0) with
  | .ok () => return ()
  | .error error => Lowering.refuse (.engine error)

theorem postTerms_eq {views : List View} {coefficients : List Int}
    (h : views.length = coefficients.length) :
    postTerms views coefficients =
      onEngine (Running.post { rule := .ofTerms (coefficients.zip views) 0 }) := by
  funext s
  simp only [postTerms, onEngine, Running.postLinear, Running.postRule, ne_eq, h, not_true_eq_false,
    if_false, Bind.bind, EStateM.bind]
  generalize Running.post _ _ = r
  rcases r with ⟨_, e'⟩ | ⟨f, e'⟩ <;> rfl

/-- Too few or too many coefficients are refused. -/
theorem postTerms_refused {views : List View} {coefficients : List Int} (hs : Ready s)
    (h : views.length ≠ coefficients.length) :
    ∃ e s', postTerms views coefficients s = .error (.error e) s' ∧ Meets [] s s' := by
  simp only [postTerms, onEngine, Running.postLinear, ne_eq, h, not_false_eq_true, if_true,
    Bind.bind, EStateM.bind]
  exact ⟨_, _, rfl, hs.resume (hs.resting.journal #[]) rfl rfl, ⟨.refl _, rfl, rfl⟩,
    fun _ _ => id, by simp⟩

/-- With one more coefficient a linear equality with such weights is bounded. -/
theorem bounded_ofTerms {weights : List Int} {views : List View} {v : View}
    (hlength : weights.length = views.length) (hlight : Light weights)
    (hviews : ∀ w ∈ views ++ [v], ∀ value, w = .constant value → word64.Fits value) :
    (Rule.ofTerms ((weights ++ [1]).zip (views ++ [v])) 0).Bounded := by
  obtain ⟨hfits, hsum⟩ := hlight
  let terms := (weights ++ [1]).zip (views ++ [v])
  have hmem : ∀ t ∈ terms.filter (·.1 != 0), t.1 ∈ weights ++ [1] ∧ t.2 ∈ views ++ [v] :=
    fun t ht => List.of_mem_zip (List.mem_filter.mp ht).1
  have hcoefficients : (terms.map fun t => |t.1|).sum = (weights.map fun w => |w|).sum + 1 := by
    have hfst : terms.map Prod.fst = weights ++ [1] := List.map_fst_zip (by simp [hlength])
    have hmap : terms.map (fun t => |t.1|) = (terms.map Prod.fst).map fun w => |w| := by
      rw [List.map_map]
      rfl
    rw [hmap, hfst]
    simp
  have hfilter : ((terms.filter (·.1 != 0)).map fun t => |t.1|).sum ≤ (terms.map fun t => |t.1|).sum :=
    List.Sublist.sum_le_sum (List.filter_sublist.map _) (List.forall_mem_map.mpr fun _ _ => abs_nonneg _)
  constructor
  · decide
  · exact hfilter.trans (by omega)
  · intro t ht
    rcases List.mem_append.mp (hmem t ht).1 with hw | hw
    · exact hfits _ hw
    · rw [List.mem_singleton.mp hw]
      decide
  · exact fun t ht => hviews t.2 (hmem t ht).2
  · exact fun t ht => by simpa using (List.mem_filter.mp ht).2

variable {terms : List Expr} {weights : List Int}

theorem postLinear_eq (coefficients : List Int) : postLinear terms coefficients result = (do
    let views ← terms.mapM viewOf
    let v ← viewOf result
    Lowering.note (.linearPosted (views ++ [v.negate]) coefficients)
    postTerms (views ++ [v.negate]) coefficients) := rfl

/-- A weighted sum is posted if there is one weight for every term. -/
theorem posting_linear (hs : Ready s) (hterms : ∀ t ∈ terms, t.isAtom = true)
    (hresult : result.isAtom = true) (hlength : weights.length = terms.length) :
    Posting (terms.flatMap Expr.occurrences ++ result.occurrences)
      (Light weights ∧ ∀ t ∈ terms, t.IsModerate) s (postLinear terms (weights ++ [1]) result s) := by
  obtain ⟨views, s₁, hrun₁, hmeets₁, hviews⟩ := exists_viewsOf hs hterms
  obtain ⟨v, s₂, hrun₂, hmeets₂, hv⟩ := exists_viewOf hmeets₁.ready hresult
  have hlengths : views.length = weights.length := hviews.length_eq.symm.trans hlength.symm
  rw [postLinear_eq, bind_ok hrun₁, bind_ok hrun₂, postTerms_eq (by simp [hlengths])]
  refine posting_note (hmeets₁.trans hmeets₂) (created_of_views (fun w hw => ?_) (by simp)) ?_
  · obtain ⟨t, ht, rfl⟩ := List.mem_map.mp hw
    rcases List.mem_append.mp (List.of_mem_zip (List.mem_filter.mp ht).1).2 with hw | hw
    · obtain ⟨_, -, hw⟩ := exists_related' hviews hw
      exact (hw.mono hmeets₂.widens).created
    · rw [List.mem_singleton.mp hw]
      exact hv.created.negate
  · rintro ⟨hlight, hmoderate⟩
    refine bounded_ofTerms hlengths.symm hlight (List.forall_mem_append.mpr ⟨fun w hw => ?_, ?_⟩)
    · obtain ⟨t, ht, hw⟩ := exists_related' hviews hw
      exact hw.fits (hmoderate t ht)
    · refine List.forall_mem_singleton.mpr fun value hvalue => ?_
      cases v with
      | constant c =>
          obtain rfl := View.constant.inj hvalue
          exact Word.fits_clamp (by decide) _
      | affine x negated offset => cases hvalue

/-- Otherwise it is refused. -/
theorem postLinear_refused (hs : Ready s) (hterms : ∀ t ∈ terms, t.isAtom = true)
    (hresult : result.isAtom = true) (hlength : weights.length ≠ terms.length) :
    ∃ e s', postLinear terms (weights ++ [1]) result s = .error (.error e) s' ∧ Meets [] s s' := by
  obtain ⟨views, s₁, hrun₁, hmeets₁, hviews⟩ := exists_viewsOf hs hterms
  obtain ⟨v, s₂, hrun₂, hmeets₂, -⟩ := exists_viewOf hmeets₁.ready hresult
  have hmeets := (hmeets₁.trans hmeets₂).subset (List.nil_subset _)
  rw [postLinear_eq, bind_ok hrun₁, bind_ok hrun₂]
  have hlengths : (views ++ [v.negate]).length ≠ (weights ++ [1]).length := by
    simpa [← hviews.length_eq] using hlength.symm
  let event : Event := .linearPosted (views ++ [v.negate]) (weights ++ [1])
  have hnoted : Meets [] s { s₂ with journal := s₂.journal.push event } := hmeets.of_backend rfl
  obtain ⟨e, s', hrun, hmeets'⟩ := postTerms_refused hnoted.ready hlengths
  exact ⟨e, s', hrun, hnoted.trans hmeets'⟩

/-! ## All constraints with a propagator -/

/-- How a constraint with a propagator is posted: its variables are met and the propagator is posted,
or the constraint is refused, and at most variables are met. -/
inductive Direct (c : Constraint) (s : Lowering.State InProcess) :
    EStateM.Result Stop (Lowering.State InProcess) Unit → Prop
  | posted {r : EStateM.Result Stop (Lowering.State InProcess) Unit} : c.Accepted →
      c ≠ .constant false → Posting c.occurrences c.Moderate s r → Direct c s r
  | failed {s' : Lowering.State InProcess} : c = .constant false → Meets [] s s' →
      Direct c s (onEngine (Running.post { rule := .disjunction [.constant 0] }) s')
  | refused {s' : Lowering.State InProcess} {e : LoweringError} :
      ¬ (c.Balanced ∧ c.Accepted) → Meets [] s s' → Direct c s (.error (.error e) s')

theorem direct_unit (hs : Ready s) (hc : c.isAtom = true) : Direct c s (postUnit c s) := by
  have haccepted : c.Accepted := .atom hc
  cases c with
  | literal l =>
      obtain ⟨v, s₁, hrun, hmeets, hv⟩ := exists_literalOf hs hc
      rw [postUnit, bind_ok hrun]
      refine .posted haccepted (by simp) (posting_note hmeets (created_of_views ?_ (by simp)) ?_)
      · exact List.forall_mem_singleton.mpr hv
      · exact fun _ => trivial
  | constant value =>
      cases value with
      | false =>
          let event : Event := .unitPosted (.constant 0) (.constant false)
          have hmeets : Meets [] s { s with journal := s.journal.push event } :=
            (Meets.refl hs).of_backend rfl
          exact .failed rfl hmeets
      | true =>
          have hmeets : Meets (Constraint.constant true).occurrences s s := .refl hs
          refine .posted haccepted (by simp) (posting_note hmeets (created_of_views ?_ (by simp)) ?_)
          · exact List.forall_mem_singleton.mpr fun x hx => by cases hx
          · exact fun _ => trivial
  | _ => cases hc

theorem posting_implies {d : Constraint} {v : View} {condition : Option View} (hs : Ready s)
    (hv : v.Created s.backend.engine.store) (hd : d.isAtom = true)
    (hcondition : ∀ v ∈ condition, v.Created s.backend.engine.store) :
    Posting d.occurrences True s ((do
      let w ← literalOf d
      Lowering.note (.implicationPosted v w condition)
      postRule (.implies v w) condition) s) := by
  obtain ⟨w, s₁, hrun, hmeets, hw⟩ := exists_literalOf hs hd
  have hcreated : ∀ {u : View}, u.Created s.backend.engine.store → u.Created s₁.backend.engine.store :=
    fun hu => hu.mono hmeets.widens.store.numVariables_le
  rw [bind_ok hrun]
  refine posting_note hmeets (created_of_views ?_ fun u hu => hcreated (hcondition u hu)) fun _ => trivial
  exact List.forall_mem_cons.mpr ⟨(hcreated hv).complement, List.forall_mem_singleton.mpr hw⟩

theorem direct_implication (hs : Ready s) : Direct (.implication a c) s (postImplication a c s) := by
  have hrefused : c.isReifiable = false → ¬ ((Constraint.implication a c).Balanced ∧
      (Constraint.implication a c).Accepted) := fun hc h => by
    simp [Constraint.accepted_implication_iff, hc] at h
  rw [postImplication]
  cases ha : a.asAtom? with
  | none =>
      refine .refused (fun h => ?_) (.refl hs)
      obtain ⟨hatom, -⟩ := Constraint.accepted_implication_iff.mp h.2
      simp [Constraint.isAtom, ha] at hatom
  | some atom =>
  have hatom : a.isAtom = true := Constraint.isAtom_iff.mpr ⟨atom, ha⟩
  obtain ⟨v, s₁, hrun, hmeets, hv⟩ := exists_viewOfAtom hs atom
  rw [vars_asAtom ha] at hmeets
  have hv : ∀ u ∈ some v, u.Created s₁.backend.engine.store := by simpa using hv.created
  have hposted : ∀ {r}, c.isReifiable = true → Posting c.occurrences True s₁ r →
      Direct (.implication a c) s r := fun hc h =>
    .posted (.implication hatom hc) (by simp) ((h.after hmeets).weaken (fun _ => id) fun _ => trivial)
  have hrefusing : ∀ {e}, c.isReifiable = false →
      Direct (.implication a c) s (.error (.error e) s₁) := fun hc =>
    .refused (hrefused hc) (hmeets.subset (List.nil_subset _))
  simp only
  rw [bind_ok hrun]
  cases c with
  | literal l => exact hposted rfl (posting_implies hmeets.ready (hv v rfl) rfl (by simp))
  | constant value => exact hposted rfl (posting_implies hmeets.ready (hv v rfl) rfl (by simp))
  | connective kind args =>
      simp only
      split
      · next hatoms =>
        exact hposted hatoms (posting_connective hmeets.ready (List.all_eq_true.mp hatoms) hv)
      · next hatoms => exact hrefusing (Bool.eq_false_iff.mpr hatoms)
  | implication b d =>
      simp only
      split
      · next hatoms =>
        obtain ⟨hb, hd⟩ := Bool.and_eq_true_iff.mp hatoms
        obtain ⟨w, s₂, hrun₂, hmeets₂, hw⟩ := exists_literalOf hmeets.ready hb
        rw [bind_ok hrun₂]
        refine hposted hatoms ((posting_implies hmeets₂.ready hw hd fun u hu => ?_).after hmeets₂)
        exact (hv u hu).mono hmeets₂.widens.store.numVariables_le
      · next hatoms => exact hrefusing (Bool.eq_false_iff.mpr hatoms)
  | comparison comparator lhs rhs =>
      simp only
      split
      · next hatoms =>
        obtain ⟨hl, hr⟩ := Bool.and_eq_true_iff.mp hatoms
        exact hposted hatoms (posting_comparison hmeets.ready hl hr hv)
      · next hatoms => exact hrefusing (Bool.eq_false_iff.mpr hatoms)
  | global g => exact hrefusing rfl

/-- Weights 1 are not too large together. -/
theorem light_replicate {n : Nat} (hn : n < 2 ^ 31) : Light (List.replicate n 1) := by
  constructor
  · intro w hw
    obtain rfl := List.eq_of_mem_replicate hw
    decide
  · simp only [List.map_replicate, abs_one, List.sum_replicate, nsmul_eq_mul, mul_one]
    omega

/-- An equality of an atom with an operation on atoms. -/
theorem direct_operator (hs : Ready s) (hcomputed : e.isComputed result = true)
    (hsides : lhs = e ∧ rhs = result ∨ lhs = result ∧ rhs = e) :
    Direct (.comparison .equal lhs rhs) s (postOperator e result s) := by
  obtain ⟨hatoms, hoperation⟩ := Bool.and_eq_true_iff.mp hcomputed
  obtain ⟨hresult, hoperands⟩ := Bool.and_eq_true_iff.mp hatoms
  have hoperands : ∀ o ∈ e.operands, o.isAtom = true := List.all_eq_true.mp hoperands
  have hmoderate : (Constraint.comparison .equal lhs rhs).Moderate →
      e.IsModerate ∧ ∀ o ∈ e.operands, o.IsModerate := fun h => by
    have he : e.Everywhere Expr.IsModerate := by
      rcases hsides with ⟨rfl, rfl⟩ | ⟨rfl, rfl⟩
      · exact h.1
      · exact h.2
    exact ⟨he.1, fun o ho => (he.operand ho).1⟩
  have hposted : ∀ {r xs small}, Posting (xs ++ result.occurrences) small s r → e.occurrences = xs →
      (e.IsModerate ∧ (∀ o ∈ e.operands, o.IsModerate) → small) →
      Direct (.comparison .equal lhs rhs) s r := by
    rintro r _ small h rfl hsmall
    refine .posted (.comparison _ _ _) (by simp) (h.weaken ?_ fun h => hsmall (hmoderate h))
    rcases hsides with ⟨rfl, rfl⟩ | ⟨rfl, rfl⟩
    · exact fun _ => id
    · exact fun _ hx => (List.mem_append.mp hx).elim (List.mem_append_right _) (List.mem_append_left _)
  cases e with
  | atom a => cases hoperation
  | element array index => cases hoperation
  | binary op a b =>
      have ha : a.isAtom = true := hoperands a (by simp [Expr.operands])
      have hb : b.isAtom = true := hoperands b (by simp [Expr.operands])
      cases op <;> exact hposted (posting_operation hs ha hb hresult) rfl fun _ => trivial
  | unary op a =>
      have ha : a.isAtom = true := hoperands a (by simp [Expr.operands])
      exact hposted (posting_unary hs ha hresult) rfl fun _ => trivial
  | sum terms =>
      have hlinear : Direct (.comparison .equal lhs rhs) s
          (postLinear terms (List.replicate (terms.length + 1) 1) result s) := by
        rw [List.replicate_succ']
        exact hposted (posting_linear hs hoperands hresult (by simp)) (Expr.occurrencesIn_eq _) fun h =>
          ⟨light_replicate h.1, h.2⟩
      rcases terms with _ | ⟨a, _ | ⟨b, _ | ⟨c, rest⟩⟩⟩
      · exact hlinear
      · exact hlinear
      · have ha : a.isAtom = true := hoperands a (by simp [Expr.operands])
        have hb : b.isAtom = true := hoperands b (by simp [Expr.operands])
        exact hposted (posting_operation hs ha hb hresult)
          (by simp [Expr.occurrences, Expr.occurrencesIn]) fun _ => trivial
      · exact hlinear
  | weightedSum weights terms =>
      by_cases hlength : weights.length = terms.length
      · exact hposted (posting_linear hs hoperands hresult hlength) (Expr.occurrencesIn_eq _) fun h =>
          ⟨h.1 hlength, h.2⟩
      · have hterms : ∀ t ∈ terms, t.isAtom = true := hoperands
        obtain ⟨error, s', hrun, hmeets⟩ := postLinear_refused hs hterms hresult hlength
        rw [show postOperator (.weightedSum weights terms) result s = _ from hrun]
        refine .refused (fun h => hlength ?_) hmeets
        rcases hsides with ⟨rfl, rfl⟩ | ⟨rfl, rfl⟩
        · exact h.1.1.1
        · exact h.1.2.1

/-- Every constraint with a propagator is posted like this. -/
theorem direct_postSimple (hs : Ready s) (hc : c.isComposite = false) :
    Direct c s (postSimple c s) := by
  cases c with
  | literal l => exact direct_unit hs rfl
  | constant value => exact direct_unit hs rfl
  | connective kind args =>
      have hatoms : ∀ d ∈ args, d.isAtom = true := by simpa [Constraint.isComposite] using hc
      have hposting : Posting _ True s (postConnective kind args none s) :=
        posting_connective hs hatoms (by simp)
      exact .posted (.connective hatoms) (by simp) (hposting.weaken (fun _ => id) fun _ => trivial)
  | implication a d => exact direct_implication hs
  | comparison comparator lhs rhs =>
      cases hatoms : lhs.isAtom && rhs.isAtom with
      | true =>
          obtain ⟨hl, hr⟩ := Bool.and_eq_true_iff.mp hatoms
          rw [postSimple, if_pos hatoms]
          have hposting : Posting _ True s (postComparison comparator lhs rhs none s) :=
            posting_comparison hs hl hr (by simp)
          exact .posted (.comparison _ _ _) (by simp) (hposting.weaken (fun _ => id) fun _ => trivial)
      | false =>
          rw [Constraint.isComposite, hatoms, Bool.not_false, Bool.true_and] at hc
          obtain ⟨hequal, hcomputed⟩ := Bool.and_eq_true_iff.mp ((Bool.not_eq_false' _).mp hc)
          obtain rfl := eq_of_beq hequal
          rw [postSimple, if_neg (by simp [hatoms])]
          split
          · next hl =>
            refine direct_operator hs ?_ (.inr ⟨rfl, rfl⟩)
            have hr : rhs.isAtom = false := by simpa [hl] using hatoms
            simpa [Expr.isComputed, hr] using hcomputed
          · next hl =>
            refine direct_operator hs ?_ (.inl ⟨rfl, rfl⟩)
            simpa [Expr.isComputed, hl] using hcomputed
  | global g =>
      cases g with
      | allDifferent args =>
          have hatoms : ∀ e ∈ args, e.isAtom = true := by simpa [Constraint.isComposite] using hc
          have hposting : Posting _ True s (postAllDifferent args s) := posting_allDifferent hs hatoms
          exact .posted (.global (by simp)) (by simp) (hposting.weaken (fun _ => id) fun _ => trivial)
      | _ => cases hc

end FiniteDomain.InProcess
