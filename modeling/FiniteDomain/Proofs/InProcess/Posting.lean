import FiniteDomain.Proofs.InProcess.Enforcement

/-!
# Posting constraints to the engine

Between two accounts of the backend something was imposed on the values of the variables. It is
sound if values that the later account allows meet the first condition. It is complete if values
that met the earlier account, and the second condition, are extended to values that meet the
later account. Posting a constraint imposes that it is not false, and that is complete for values
that make it true and its named expressions representable.
-/

namespace FiniteDomain.InProcess

open Engine (View Valuation Store Propagator Rule Running)
open Constraint (knownTo_comparison_iff knownTo_connective_iff knownTo_implication_iff
  knownTo_global_iff)

variable {g g' g₀ g₁ g₂ : Account} {scope : Scope} {p : Propagator} {c c' : Constraint}
  {S S' S₁ S₂ C C' C₁ C₂ : (VarId → Int) → Prop}

/-! ## What is imposed -/

/-- What is imposed on the values of variables between two accounts. -/
structure Imposes (scope : Scope) (g g' : Account) (Assured Needed : (VarId → Int) → Prop) :
    Prop where
  sound : scope ≠ .words → ∀ τ, g'.Allows τ → Assured τ
  complete : scope = .modest → ∀ τ, g.Meets τ → Needed τ →
    ∃ τ', Agree g.registry.next τ τ' ∧ g'.Meets τ'

/-- The constraint was posted. -/
def Posts (scope : Scope) (g g' : Account) (c : Constraint) : Prop :=
  Imposes scope g g' (fun τ => ¬ c.Fails τ) fun τ => c.Realised τ

namespace Imposes

theorem weaken (h : Imposes scope g g' S C) (hS : ∀ τ, g'.Allows τ → S τ → S' τ)
    (hC : ∀ τ, C' τ → C τ) : Imposes scope g g' S' C' where
  sound := fun hscope τ hτ => hS τ hτ (h.sound hscope τ hτ)
  complete := fun hscope τ hτ hC' => h.complete hscope τ hτ (hC τ hC')

/-- One thing was imposed after the other. -/
theorem append (h₁ : Imposes scope g g₁ S₁ C₁) (h₂ : Imposes scope g₁ g₂ S₂ C₂)
    (hg₁ : g₁.Consistent) (hle₁ : g.Grows g₁) (hle₂ : g₁.Grows g₂)
    (hS : ∀ τ, g₂.Allows τ → S₁ τ → S₂ τ → S τ) (hC₁ : ∀ τ, C τ → C₁ τ)
    (hC₂ : ∀ τ τ', g.registry.Respects τ → C τ → Agree g.registry.next τ τ' → C₂ τ') :
    Imposes scope g g₂ S C where
  sound := fun hscope τ hτ =>
    hS τ hτ (h₁.sound hscope τ (hτ.of_grows hg₁ hle₂)) (h₂.sound hscope τ hτ)
  complete := fun hscope τ hτ hC => by
    obtain ⟨τ₁, hagree₁, hτ₁⟩ := h₁.complete hscope τ hτ (hC₁ τ hC)
    obtain ⟨τ₂, hagree₂, hτ₂⟩ := h₂.complete hscope τ₁ hτ₁ (hC₂ τ τ₁ hτ.1 hC hagree₁)
    exact ⟨τ₂, hagree₁.trans hagree₂ hle₁.registry.1, hτ₂⟩

/-- A propagator that enforces a constraint was posted. -/
theorem of_enforces (h : Enforces scope g p c) : Posts scope g (g.post p) c where
  sound := fun hscope τ hτ => by
    obtain ⟨hallows, hpasses⟩ := Account.allows_post_iff.mp hτ
    exact h.sound hscope τ hallows.1 hpasses
  complete := fun hscope τ hτ hc => by
    have hp := h.complete hscope τ hτ.1 hc.1
    exact ⟨τ, fun _ _ => rfl, Account.meets_post_iff.mpr ⟨hτ, hp⟩⟩

/-- Constraints that encode a condition were posted after their variables were created. -/
theorem of_encodes {cs : List Constraint} {r : Registry} (h : Encodes scope g.registry r cs S C)
    (hg : g.Consistent) (hle : g.registry ≤ r)
    (hposts : Imposes scope (g.know r) g' (fun τ => ∀ c ∈ cs, ¬ c.Fails τ)
      fun τ => ∀ c ∈ cs, c.Realised τ) (hle' : (g.know r).Grows g') :
    Imposes scope g g' S C where
  sound := fun hscope τ hτ =>
    h.sound τ (hτ.1.mono hle'.registry) (hposts.sound hscope τ hτ)
  complete := fun hscope τ hτ hC => by
    have hcomplete : scope.Complete := hscope ▸ trivial
    obtain ⟨τ₁, hagree₁, hτ₁, hall⟩ := h.complete hcomplete τ hτ.1 hC
    have hmeets : (g.know r).Meets τ₁ := hτ.of_agree hg (Account.consistent_know hg hle)
      (Account.grows_know hle) rfl hagree₁ hτ₁
    obtain ⟨τ₂, hagree₂, hτ₂⟩ := hposts.complete hscope τ₁ hmeets hall
    exact ⟨τ₂, hagree₁.trans hagree₂ hle.1, hτ₂⟩

end Imposes

/-- The views were created before something was imposed. -/
theorem Imposes.of_binds (h : Imposes scope g g' S C) (hbinds : Binds g₀ g) (hg₀ : g₀.Consistent)
    (hg : g.Consistent) : Imposes scope g₀ g' S C where
  sound := h.sound
  complete := fun hscope τ hτ hC => by
    have hmeets : g.Meets τ := hτ.of_agree hg₀ hg hbinds.grows hbinds.posted_eq
      (fun _ _ => rfl) (hbinds.registry_eq ▸ hτ.1)
    obtain ⟨τ', hagree, hτ'⟩ := h.complete hscope τ hmeets hC
    exact ⟨τ', hbinds.registry_eq ▸ hagree, hτ'⟩

/-- The views were created after something was imposed. -/
theorem Imposes.then_binds (h : Imposes scope g g₁ S C) (hbinds : Binds g₁ g₂)
    (hg₁ : g₁.Consistent) (hg₂ : g₂.Consistent) : Imposes scope g g₂ S C where
  sound := fun hscope τ hτ => h.sound hscope τ (hτ.of_grows hg₁ hbinds.grows)
  complete := fun hscope τ hτ hC => by
    obtain ⟨τ', hagree, hτ'⟩ := h.complete hscope τ hτ hC
    exact ⟨τ', hagree, hτ'.of_agree hg₁ hg₂ hbinds.grows hbinds.posted_eq (fun _ _ => rfl)
      (hbinds.registry_eq ▸ hτ'.1)⟩

/-- Nothing was imposed. -/
theorem Imposes.refl (scope : Scope) (g : Account) :
    Imposes scope g g (fun _ => True) fun _ => True :=
  ⟨fun _ _ _ => trivial, fun _ τ hτ _ => ⟨τ, fun _ _ => rfl, hτ⟩⟩

/-! ## Constraints over atoms -/

/-- One propagator was posted, which decides the constraint. -/
def Settles (g g' : Account) (c : Constraint) : Prop :=
  ∃ g₁ rule condition body, Binds g g₁ ∧ g₁.Consistent ∧ Decides g₁ rule body ∧
    Guarded g₁ condition body c ∧ g' = g₁.post { rule := rule, condition := condition }

theorem Settles.posts (h : Settles g g' c) (hg : g.Consistent) : Posts scope g g' c := by
  obtain ⟨g₁, rule, condition, body, hbinds, hg₁, hdecides, hguard, rfl⟩ := h
  exact (Imposes.of_enforces (hdecides.enforces hguard)).of_binds hbinds hg hg₁

/-- Such a propagator is small. -/
theorem Settles.small (h : Settles g g' c) (hg : g.Consistent)
    (hsmall : ∀ p ∈ g.posted, p.Small g.declared) : ∀ p ∈ g'.posted, p.Small g'.declared := by
  obtain ⟨g₁, rule, condition, body, hbinds, hg₁, hdecides, hguard, rfl⟩ := h
  refine List.forall_mem_append.mpr ⟨fun p hp => ?_, List.forall_mem_singleton.mpr hdecides.small⟩
  rw [hbinds.posted_eq] at hp
  exact (Propagator.small_extend_iff (hg.exact p hp) hbinds.grows.declared).mpr (hsmall p hp)

/-- Posting a propagator that decides the constraint. -/
theorem keeps_settle {rule : Rule} {condition : Option View} (hbinds : Binds g₀ g)
    (hg : g.Consistent) (h : Decides g rule c) (hguard : Guarded g condition c c') :
    Keeps g (onEngine (Running.post { rule := rule, condition := condition })) fun _ g' =>
      Settles g₀ g' c' := by
  have henforces : Enforces .words g ⟨rule, condition⟩ c' := h.enforces hguard
  apply (keeps_post henforces.exact).weaken
  rintro _ _ - - rfl
  exact ⟨g, rule, condition, c, hbinds, hg, h, hguard, rfl⟩

/-- The same after an event. -/
theorem keeps_noteSettle {event : Event} {rule : Rule} {condition : Option View}
    (hbinds : Binds g₀ g) (h : Decides g rule c) (hguard : Guarded g condition c c') :
    Keeps g (do
      Lowering.note event
      onEngine (Running.post { rule := rule, condition := condition })) fun _ g' =>
        Settles g₀ g' c' :=
  Keeps.note.bind fun _ g' _ hg' heq => by
    subst heq
    exact keeps_settle hbinds hg' h hguard

theorem keeps_postConnective {kind : Connective} {args : List Constraint} {condition : Option View}
    (hbinds : Binds g₀ g) (hg : g.Consistent)
    (hknown : (Constraint.connective kind args).KnownTo g.registry)
    (hguard : Guarded g condition (.connective kind args) c) :
    Keeps g (postConnective kind args condition) fun _ g' => Settles g₀ g' c := by
  have hargs := knownTo_connective_iff.mp hknown
  refine (keeps_literalsOf hargs).bind fun literals g₁ hle hg₁ h => ?_
  obtain ⟨hbinds₁, hliterals⟩ := h
  exact keeps_noteSettle (hbinds.trans hbinds₁)
    (decides_connective (hbinds₁.registry_eq ▸ hargs) hliterals) (hguard.mono hg hle)

theorem keeps_postComparison {comparator : Comparator} {lhs rhs : Expr} {condition : Option View}
    (hbinds : Binds g₀ g) (hg : g.Consistent)
    (hknown : (Constraint.comparison comparator lhs rhs).KnownTo g.registry)
    (hl : lhs.Plain scope) (hr : rhs.Plain scope)
    (hguard : Guarded g condition (.comparison comparator lhs rhs) c) :
    Keeps g (postComparison comparator lhs rhs condition) fun _ g' => Settles g₀ g' c := by
  obtain ⟨hknownL, hknownR⟩ := knownTo_comparison_iff.mp hknown
  refine (keeps_viewOf hknownL hl).bind fun v g₁ hle₁ hg₁ h => ?_
  obtain ⟨hbinds₁, hv⟩ := h
  refine (keeps_viewOf (hbinds₁.registry_eq ▸ hknownR) hr).bind fun w g₂ hle₂ hg₂ h => ?_
  obtain ⟨hbinds₂, hw⟩ := h
  exact keeps_noteSettle ((hbinds.trans hbinds₁).trans hbinds₂)
    (decides_comparison (hv.mono hg₁ hle₂) hw) (hguard.mono hg (hle₁.trans hle₂))

theorem keeps_postImplication {a : Constraint}
    (hknown : (Constraint.implication a c).KnownTo g.registry)
    (hplain : (Constraint.implication a c).Plain scope) :
    Keeps g (postImplication a c) fun _ g' => Settles g g' (.implication a c) := by
  obtain ⟨hknownA, hknownC⟩ := knownTo_implication_iff.mp hknown
  rw [postImplication]
  cases ha : a.asAtom? with
  | none => exact Keeps.refuse
  | some atom =>
  have hplainA : atom.Plain .words := plain_asAtom ha
  refine (keeps_viewOfAtom (knownTo_asAtom ha hknownA) hplainA).bind
    fun condition g₁ hle₁ hg₁ h => ?_
  obtain ⟨hbinds, hcondition⟩ := h
  have hsignals : Signals g₁ a condition := ⟨atom, ha, hcondition⟩
  have hknownA : a.KnownTo g₁.registry := hbinds.registry_eq ▸ hknownA
  have hknownC : c.KnownTo g₁.registry := hbinds.registry_eq ▸ hknownC
  have hguard : ∀ c, Guarded g₁ (some condition) c (.implication a c) := fun c =>
    .under c hknownA hsignals
  -- a literal or a truth value is implied without a condition
  have hunit : c.isAtom = true → Keeps g₁ (do
      let b ← literalOf c
      Lowering.note (.implicationPosted condition b none)
      postRule (.implies condition b)) fun _ g' => Settles g g' (.implication a c) := by
    intro _
    refine (keeps_literalOf hknownC).bind fun b g₂ hle₂ hg₂ h => ?_
    obtain ⟨hbinds₂, hb⟩ := h
    exact keeps_noteSettle (hbinds.trans hbinds₂) (decides_implies (hknownA.mono hle₂.registry)
      (hknownC.mono hle₂.registry) hg₂ (hsignals.mono hg₁ hle₂) hb) (.always _)
  cases c with
  | literal l => exact hunit rfl
  | constant value => exact hunit rfl
  | connective kind args =>
      simp only
      split
      · exact keeps_postConnective hbinds hg₁ hknownC (hguard _)
      · exact Keeps.refuse
  | implication b c =>
      simp only
      split
      · obtain ⟨hknownB, hknownC⟩ := knownTo_implication_iff.mp hknownC
        refine (keeps_literalOf hknownB).bind fun v g₂ hle₂ hg₂ h => ?_
        obtain ⟨hbinds₂, hv⟩ := h
        refine (keeps_literalOf (hbinds₂.registry_eq ▸ hknownC)).bind fun w g₃ hle₃ hg₃ h => ?_
        obtain ⟨hbinds₃, hw⟩ := h
        have hle := hle₂.trans hle₃
        exact keeps_noteSettle ((hbinds.trans hbinds₂).trans hbinds₃)
          (decides_implies (hknownB.mono hle.registry) (hknownC.mono hle.registry) hg₃
            (hv.mono hg₂ hle₃) hw) ((hguard _).mono hg₁ hle)
      · exact Keeps.refuse
  | comparison comparator lhs rhs =>
      simp only
      split
      · next hatoms =>
        have hsides := hplain.2
        rw [Constraint.Plain, if_pos hatoms] at hsides
        exact keeps_postComparison hbinds hg₁ hknownC hsides.1 hsides.2 (hguard _)
      · exact Keeps.refuse
  | global g => exact Keeps.refuse

/-! ## Operations -/

theorem zipWith_ones (vs : List Int) :
    List.zipWith (· * ·) (List.replicate vs.length 1) vs = vs := by
  induction vs with
  | nil => rfl
  | cons v vs ih => simpa [List.replicate_succ] using ih

/-- Posting a propagator that enforces the constraint. -/
theorem keeps_enforce (hbinds : Binds g₀ g) (hg₀ : g₀.Consistent) (hg : g.Consistent)
    (h : Enforces scope g p c) :
    Keeps g (onEngine (Running.post p)) fun _ g' => Posts scope g₀ g' c := by
  apply (keeps_post h.exact).weaken
  rintro _ _ - - rfl
  exact (Imposes.of_enforces h).of_binds hbinds hg₀ hg

section Operations

variable {e result a b lhs rhs : Expr}

/-- A linear equality is posted if there is one coefficient for every view. -/
theorem keeps_postLinearEquality {views : List View} {coefficients : List Int}
    (hexact : ({ rule := .ofTerms (coefficients.zip views) 0 } : Propagator).Exact g.declared) :
    Keeps g (onEngine (Running.postLinear views coefficients 0)) fun posted g' =>
      posted = .ok () → views.length = coefficients.length ∧
        g' = g.post { rule := .ofTerms (coefficients.zip views) 0 } := by
  intro s hs
  by_cases hlength : views.length = coefficients.length
  · have hpost := keeps_post hexact s hs
    simp only [onEngine, Running.postLinear, Running.postRule, ne_eq, hlength, not_true_eq_false,
      if_false, Bind.bind, EStateM.bind] at hpost ⊢
    generalize Running.post _ _ = r at hpost ⊢
    rcases r with ⟨_, e'⟩ | ⟨f, e'⟩
    · obtain ⟨g', hle, hobj, hs', rfl⟩ := hpost
      exact ⟨_, hle, hobj, hs', fun _ => ⟨trivial, rfl⟩⟩
    · trivial
  · simp only [onEngine, Running.postLinear, ne_eq, hlength, not_false_eq_true, if_true]
    refine ⟨g, .refl g, rfl, ⟨hs.consistent, ?_, hs.objective_eq, hs.next_eq, hs.views_iff⟩,
      fun h => by cases h⟩
    exact tracks_journal hs.tracks _

theorem keeps_postLinear {terms : List Expr} {weights : List Int}
    (hsides : lhs = e ∧ rhs = result ∨ lhs = result ∧ rhs = e) (hg : g.Consistent)
    (hknown : ∀ t ∈ terms, t.KnownTo g.registry) (hplain : ∀ t ∈ terms, t.Plain scope)
    (hknownR : result.KnownTo g.registry) (hplainR : result.Plain scope)
    (hlimit : terms.length ≤ scope.limit) (hweights : ∀ w ∈ weights, word64.Fits w)
    (heval : weights.length = terms.length → ∀ τ, g.registry.Respects τ → ∀ x,
      e.evaluate (total τ) = .ok x → ∃ vs, Expr.Values (total τ) terms vs ∧
        (∀ p ∈ List.zipWith (· * ·) weights vs, word64.Fits p) ∧
          addAll 0 (List.zipWith (· * ·) weights vs) = some x) :
    Keeps g (postLinear terms (weights ++ [1]) result) fun _ g' =>
      Posts scope g g' (.comparison .equal lhs rhs) := by
  refine (keeps_viewsOf hknown hplain).bind fun views g₁ hle₁ hg₁ h => ?_
  obtain ⟨hbinds₁, hviews⟩ := h
  refine (keeps_viewOf (hbinds₁.registry_eq ▸ hknownR) hplainR).bind fun w g₂ hle₂ hg₂ h => ?_
  obtain ⟨hbinds₂, hw⟩ := h
  have hviews := hviews.imp fun _ _ hv => hv.mono hg₁ hle₂
  refine Keeps.note.bind fun _ g₃ _ hg₃ heq => ?_
  subst heq
  refine (keeps_postLinearEquality (exact_linear hg₃ hviews hw)).bind fun posted g₄ _ hg₄ h => ?_
  cases posted with
  | error error => exact Keeps.refuse
  | ok _ =>
      obtain ⟨hlength, rfl⟩ := h rfl
      have hlength : weights.length = terms.length := by
        simp only [List.length_append, ← hviews.length_eq] at hlength
        exact (Nat.succ.inj hlength).symm
      have hbinds := hbinds₁.trans hbinds₂
      have hcomputes := computes_sum hg₃ hviews hw hplainR hlength hlimit hweights fun τ hτ =>
        heval hlength τ (hbinds.registry_eq ▸ hτ)
      exact Keeps.pure fun _ =>
        (Imposes.of_enforces (hcomputes.enforces hsides)).of_binds hbinds hg hg₃

theorem keeps_postOperation {operator : Operator} {negated : Bool}
    (hsides : lhs = e ∧ rhs = result ∨ lhs = result ∧ rhs = e) (hg : g.Consistent)
    (hknownA : a.KnownTo g.registry) (hplainA : a.Plain scope)
    (hknownB : b.KnownTo g.registry) (hplainB : b.Plain scope)
    (hknownR : result.KnownTo g.registry) (hplainR : result.Plain scope)
    (heval : ∀ σ r, e.evaluate σ = .ok r → ∃ x y,
      a.evaluate σ = .ok x ∧ b.evaluate σ = .ok y ∧
        operator.apply x (if negated then -y else y) = some r) :
    Keeps g (postOperation operator a b negated result) fun _ g' =>
      Posts scope g g' (.comparison .equal lhs rhs) := by
  refine (keeps_viewOf hknownA hplainA).bind fun va g₁ hle₁ hg₁ h => ?_
  obtain ⟨hbinds₁, ha⟩ := h
  refine (keeps_viewOf (hbinds₁.registry_eq ▸ hknownB) hplainB).bind fun vb g₂ hle₂ hg₂ h => ?_
  obtain ⟨hbinds₂, hb⟩ := h
  have hbinds₂ := hbinds₁.trans hbinds₂
  refine (keeps_viewOf (hbinds₂.registry_eq ▸ hknownR) hplainR).bind fun w g₃ hle₃ hg₃ h => ?_
  obtain ⟨hbinds₃, hw⟩ := h
  refine Keeps.note.bind fun _ g₄ _ hg₄ heq => ?_
  subst heq
  have hcomputes := computes_operation hg₄ (ha.mono hg₁ (hle₂.trans hle₃)) (hb.mono hg₂ hle₃) hw
    hplainB fun τ _ => heval (total τ)
  exact keeps_enforce (hbinds₂.trans hbinds₃) hg hg₄ (hcomputes.enforces hsides)

/-- A propagator of two views is posted for an operator with one operand. -/
theorem keeps_postUnary (event : View → View → Event) (propagator : View → View → Propagator)
    (hsides : lhs = e ∧ rhs = result ∨ lhs = result ∧ rhs = e) (hg : g.Consistent)
    (hknownA : a.KnownTo g.registry) (hplainA : a.Plain scope)
    (hknownR : result.KnownTo g.registry) (hplainR : result.Plain scope)
    (hcomputes : ∀ g v w, g.Consistent → Depicts g a v → Depicts g result w →
      Computes scope g (propagator v w) e result) :
    Keeps g (do
      let v ← viewOf a
      let w ← viewOf result
      Lowering.note (event v w)
      onEngine (Running.post (propagator v w))
      return true) fun posted g' =>
        if posted then Posts scope g g' (.comparison .equal lhs rhs) else g' = g := by
  refine (keeps_viewOf hknownA hplainA).bind fun v g₁ hle₁ hg₁ h => ?_
  obtain ⟨hbinds₁, hv⟩ := h
  refine (keeps_viewOf (hbinds₁.registry_eq ▸ hknownR) hplainR).bind fun w g₂ hle₂ hg₂ h => ?_
  obtain ⟨hbinds₂, hw⟩ := h
  refine Keeps.note.bind fun _ g₃ _ hg₃ heq => ?_
  subst heq
  have henforces := (hcomputes _ v w hg₃ (hv.mono hg₁ hle₂) hw).enforces hsides
  exact (keeps_enforce (hbinds₁.trans hbinds₂) hg hg₃ henforces).bind
    fun _ _ _ _ hposts => Keeps.pure fun _ => hposts

/-- An operator with two operands has an operation of the engine. -/
theorem keeps_postBinary {op : BinaryOp} {operator : Operator} {negated : Bool}
    (hsides : lhs = .binary op a b ∧ rhs = result ∨ lhs = result ∧ rhs = .binary op a b)
    (hg : g.Consistent) (hknown : (Expr.binary op a b).KnownTo g.registry)
    (hplain : (Expr.binary op a b).Plain scope)
    (hknownR : result.KnownTo g.registry) (hplainR : result.Plain scope)
    (happly : ∀ x y r, op.apply x y = some r →
      operator.apply x (if negated then -y else y) = some r) :
    Keeps g (postOperation operator a b negated result) fun _ g' =>
      Posts scope g g' (.comparison .equal lhs rhs) := by
  have hpart : ∀ o ∈ (Expr.binary op a b).operands, o.KnownTo g.registry ∧ o.Plain scope :=
    fun o ho => ⟨hknown.part (Expr.mem_parts_of_operand ho),
      hplain.part (Expr.mem_parts_of_operand ho)⟩
  obtain ⟨hknownA, hplainA⟩ := hpart a (by simp [Expr.operands])
  obtain ⟨hknownB, hplainB⟩ := hpart b (by simp [Expr.operands])
  apply keeps_postOperation hsides hg hknownA hplainA hknownB hplainB hknownR hplainR
  intro σ r hr
  obtain ⟨x, y, hx, hy, hr⟩ := Expr.evaluate_binary_iff.mp hr
  exact ⟨x, y, hx, hy, happly x y r hr⟩

variable {terms : List Expr}

/-- A sum is a linear equality whose weights are one. -/
theorem keeps_postSum (hsides : lhs = .sum terms ∧ rhs = result ∨ lhs = result ∧ rhs = .sum terms)
    (hg : g.Consistent) (hknown : (Expr.sum terms).KnownTo g.registry)
    (hplain : (Expr.sum terms).Plain scope) (hatoms : terms.all (·.isAtom) = true)
    (hknownR : result.KnownTo g.registry) (hplainR : result.Plain scope) :
    Keeps g (postLinear terms (List.replicate (terms.length + 1) 1) result) fun _ g' =>
      Posts scope g g' (.comparison .equal lhs rhs) := by
  have hpart : ∀ t ∈ terms, t ∈ (Expr.sum terms).parts := fun t ht =>
    Expr.mem_parts_of_operand (e := .sum terms) ht
  have hfits : ∀ τ, g.registry.Respects τ → ∀ vs, Expr.Values (total τ) terms vs →
      ∀ v ∈ vs, word64.Fits v := by
    intro τ hτ vs hvs v hv
    obtain ⟨t, ht, hv⟩ := exists_related' hvs hv
    have hinner : ∀ o ∈ (Expr.sum terms).inner, o.Representable τ := by
      rw [Expr.inner_eq_nil (e := .sum terms) hatoms]
      exact List.forall_mem_nil _
    exact (Expr.admits_part hτ hknown hplain hinner (hpart t ht) hv).1
  rw [List.replicate_succ']
  apply keeps_postLinear hsides hg (fun t ht => hknown.part (hpart t ht))
    (fun t ht => hplain.part (hpart t ht)) hknownR hplainR hplain.1
  · intro w hw
    obtain rfl := List.eq_of_mem_replicate hw
    decide
  · intro _ τ hτ x hx
    obtain ⟨vs, hvs, hadd⟩ := Expr.evaluateSum_iff.mp hx
    have hones : List.zipWith (· * ·) (List.replicate terms.length 1) vs = vs := by
      rw [hvs.length_eq]
      exact zipWith_ones vs
    refine ⟨vs, hvs, ?_, ?_⟩
    · rw [hones]
      exact hfits τ hτ vs hvs
    · rw [hones]
      exact hadd

/-- A sum of two terms is an operation of the engine. -/
theorem keeps_postPair
    (hsides : lhs = .sum [a, b] ∧ rhs = result ∨ lhs = result ∧ rhs = .sum [a, b])
    (hg : g.Consistent) (hknown : (Expr.sum [a, b]).KnownTo g.registry)
    (hplain : (Expr.sum [a, b]).Plain scope)
    (hknownR : result.KnownTo g.registry) (hplainR : result.Plain scope) :
    Keeps g (postOperation .sum a b false result) fun _ g' =>
      Posts scope g g' (.comparison .equal lhs rhs) := by
  have hpart : ∀ o ∈ [a, b], o.KnownTo g.registry ∧ o.Plain scope := fun o ho =>
    ⟨hknown.part (Expr.mem_parts_of_operand (e := .sum [a, b]) ho),
      hplain.part (Expr.mem_parts_of_operand (e := .sum [a, b]) ho)⟩
  obtain ⟨hknownA, hplainA⟩ := hpart a (by simp)
  obtain ⟨hknownB, hplainB⟩ := hpart b (by simp)
  apply keeps_postOperation hsides hg hknownA hplainA hknownB hplainB hknownR hplainR
  intro σ r hr
  obtain ⟨vs, hvs, hadd⟩ := Expr.evaluateSum_iff.mp hr
  cases hvs with
  | @cons _ x _ _ hx hvs =>
  cases hvs with
  | @cons _ y _ _ hy hvs =>
  cases hvs
  obtain ⟨-, hadd⟩ := addAll_cons_eq_some_iff.mp hadd
  obtain ⟨hfits, hadd⟩ := addAll_cons_eq_some_iff.mp hadd
  rw [Int.zero_add] at hfits hadd
  exact ⟨x, y, hx, hy, Word.fit?_eq_some_iff.mpr ⟨hfits, (Option.some.inj hadd).symm⟩⟩

/-- A weighted sum is a linear equality with its own weights. -/
theorem keeps_postWeightedSum {weights : List Int}
    (hsides : lhs = .weightedSum weights terms ∧ rhs = result ∨
      lhs = result ∧ rhs = .weightedSum weights terms)
    (hg : g.Consistent) (hknown : (Expr.weightedSum weights terms).KnownTo g.registry)
    (hplain : (Expr.weightedSum weights terms).Plain scope)
    (hknownR : result.KnownTo g.registry) (hplainR : result.Plain scope) :
    Keeps g (postLinear terms (weights ++ [1]) result) fun _ g' =>
      Posts scope g g' (.comparison .equal lhs rhs) := by
  have hpart : ∀ t ∈ terms, t ∈ (Expr.weightedSum weights terms).parts := fun t ht =>
    Expr.mem_parts_of_operand (e := .weightedSum weights terms) ht
  apply keeps_postLinear hsides hg (fun t ht => hknown.part (hpart t ht))
    (fun t ht => hplain.part (hpart t ht)) hknownR hplainR hplain.1.2 hplain.1.1
  intro hlength τ _ x hx
  obtain ⟨vs, hvs, hproducts, hadd⟩ := Expr.evaluateWeighted_iff.mp hx
  rw [hlength, List.take_length] at hvs
  exact ⟨vs, hvs, hproducts, hadd⟩

theorem keeps_postFunctional (hsides : lhs = e ∧ rhs = result ∨ lhs = result ∧ rhs = e)
    (hg : g.Consistent) (hknown : e.KnownTo g.registry) (hplain : e.Plain scope)
    (hatoms : e.operands.all (·.isAtom) = true)
    (hknownR : result.KnownTo g.registry) (hplainR : result.Plain scope) :
    Keeps g (postFunctional e result) fun posted g' =>
      if posted then Posts scope g g' (.comparison .equal lhs rhs) else g' = g := by
  have hposted : ∀ {action : Action Unit},
      Keeps g action (fun _ g' => Posts scope g g' (.comparison .equal lhs rhs)) →
      Keeps g (do action; return true) fun posted g' =>
        if posted then Posts scope g g' (.comparison .equal lhs rhs) else g' = g :=
    fun h => h.bind fun _ _ _ _ hposts => Keeps.pure fun _ => hposts
  cases e with
  | atom a => exact Keeps.pure fun _ => rfl
  | element array index => exact Keeps.pure fun _ => rfl
  | binary op a b =>
      have hoperation : ∀ operator negated, (∀ x y r, op.apply x y = some r →
          operator.apply x (if negated then -y else y) = some r) →
          Keeps g (postOperation operator a b negated result) fun _ g' =>
            Posts scope g g' (.comparison .equal lhs rhs) := fun _ _ =>
        keeps_postBinary hsides hg hknown hplain hknownR hplainR
      cases op with
      | sub => exact hposted (hoperation .sum true fun x y r h => h)
      | mul => exact hposted (hoperation .times false fun x y r h => h)
      | div => exact hposted (hoperation .div false fun x y r h => h)
      | mod => exact hposted (hoperation .mod false fun x y r h => h)
      | pow => exact hposted (hoperation .pow false fun x y r h => h)
  | unary op a =>
      have hpart : a ∈ (Expr.unary op a).parts :=
        Expr.mem_parts_of_operand (by simp [Expr.operands])
      have hplainA := hplain.part hpart
      cases op with
      | abs =>
          exact keeps_postUnary (fun v w => .absolutePosted v w)
            (fun v w => { rule := .absolute v w }) hsides hg (hknown.part hpart) hplainA hknownR
            hplainR fun g v w _ hv hw => computes_absolute hv hw
      | neg =>
          exact keeps_postUnary (fun v w => .equalPosted v.negate w)
            (fun v w => { rule := .equal v.negate w }) hsides hg (hknown.part hpart) hplainA hknownR
            hplainR fun g v w hg hv hw => computes_negation hg hv hw hplainA
  | sum terms =>
      have hsum := keeps_postSum hsides hg hknown hplain hatoms hknownR hplainR
      rcases terms with _ | ⟨a, _ | ⟨b, _ | ⟨c, rest⟩⟩⟩
      · exact hposted hsum
      · exact hposted hsum
      · exact hposted (keeps_postPair hsides hg hknown hplain hknownR hplainR)
      · exact hposted hsum
  | weightedSum weights terms =>
      exact hposted (keeps_postWeightedSum hsides hg hknown hplain hknownR hplainR)

end Operations

/-! ## All constraints -/

/-- There is a propagator that decides the constraint as it is. -/
def IsDirect (c : Constraint) : Prop :=
  c.isReifiable = true ∨ (∃ a b, c = .implication a b) ∨
    ∃ args, c = .allDifferent args ∧ args.all (·.isAtom) = true

theorem keeps_postPrimitive_of_direct (hc : IsDirect c) (hg : g.Consistent)
    (hknown : c.KnownTo g.registry) (hplain : c.Plain scope) :
    Keeps g (postPrimitive c) fun posted g' => posted = true ∧ Settles g g' c := by
  have hposted : ∀ {action : Action Unit}, Keeps g action (fun _ g' => Settles g g' c) →
      Keeps g (do action; return true) fun posted g' => posted = true ∧ Settles g g' c :=
    fun h => h.bind fun _ _ _ _ hsettles => Keeps.pure fun _ => ⟨rfl, hsettles⟩
  have hunit : Keeps g (do
      let v ← literalOf c
      Lowering.note (.unitPosted v c)
      postRule (.disjunction [v])
      return true) fun posted g' => posted = true ∧ Settles g g' c := by
    refine (keeps_literalOf hknown).bind fun v g₁ hle₁ hg₁ h => ?_
    obtain ⟨hbinds, hv⟩ := h
    refine Keeps.note.bind fun _ g₂ _ hg₂ heq => ?_
    subst heq
    have hdecides := decides_unit (hknown.mono hle₁.registry) hv
    exact (keeps_settle hbinds hg₂ hdecides (.always c)).bind fun _ _ _ _ hsettles =>
      Keeps.pure fun _ => ⟨rfl, hsettles⟩
  rcases hc with hc | ⟨a, b, rfl⟩ | ⟨args, rfl, hatoms⟩
  · cases c with
    | literal l => exact hunit
    | constant value => exact hunit
    | connective kind args =>
        have hatoms : args.all (·.isAtom) = true := hc
        rw [postPrimitive, if_pos hatoms]
        exact hposted (keeps_postConnective (.refl g) hg hknown (.always _))
    | implication a b => exact hposted (keeps_postImplication hknown hplain)
    | comparison comparator lhs rhs =>
        have hatoms : (lhs.isAtom && rhs.isAtom) = true := hc
        rw [Constraint.Plain, if_pos hatoms] at hplain
        rw [postPrimitive, if_pos hatoms]
        exact hposted (keeps_postComparison (.refl g) hg hknown hplain.1 hplain.2 (.always _))
    | global global => cases hc
  · exact hposted (keeps_postImplication hknown hplain)
  · rw [Constraint.allDifferent, postPrimitive, if_pos hatoms]
    refine (keeps_viewsOf (knownTo_global_iff.mp hknown) hplain.1).bind fun views g₁ _ hg₁ h => ?_
    obtain ⟨hbinds, hviews⟩ := h
    refine Keeps.note.bind fun _ g₂ _ hg₂ heq => ?_
    subst heq
    exact (keeps_settle hbinds hg₂ (decides_allDifferent hviews) (.always _)).bind
      fun _ _ _ _ hsettles => Keeps.pure fun _ => ⟨rfl, hsettles⟩

/-- An equality with a structured side is posted, or nothing happens. -/
theorem keeps_postEquality {lhs rhs : Expr} (hg : g.Consistent)
    (hatoms : ¬ (lhs.isAtom && rhs.isAtom) = true)
    (hknown : (Constraint.eq lhs rhs).KnownTo g.registry)
    (hplain : (Constraint.eq lhs rhs).Plain scope) :
    Keeps g (postPrimitive (.eq lhs rhs)) fun posted g' =>
      if posted then Posts scope g g' (.eq lhs rhs) else g' = g := by
  obtain ⟨hplainL, hplainR⟩ := hplain.sides hatoms
  obtain ⟨hknownL, hknownR⟩ := knownTo_comparison_iff.mp hknown
  have hfunctional : ∀ {e result}, (lhs = e ∧ rhs = result ∨ lhs = result ∧ rhs = e) →
      e.KnownTo g.registry → e.Plain scope → result.KnownTo g.registry → result.Plain scope →
      Keeps g (do
        if result.isAtom && e.operands.all (·.isAtom) then
          return ← postFunctional e result
        return false) fun posted g' =>
          if posted then Posts scope g g' (.eq lhs rhs) else g' = g := by
    intro e result hsides hknown hplain hknownR hplainR
    split
    · next hatoms =>
      have hoperands := (Bool.and_eq_true_iff.mp hatoms).2
      exact keeps_postFunctional hsides hg hknown hplain hoperands hknownR hplainR
    · exact Keeps.pure fun _ => rfl
  rw [Constraint.eq, postPrimitive, if_neg hatoms, if_neg (not_not.mpr rfl)]
  cases lhs.isAtom
  · exact hfunctional (.inl ⟨rfl, rfl⟩) hknownL hplainL hknownR hplainR
  · exact hfunctional (.inr ⟨rfl, rfl⟩) hknownR hplainR hknownL hplainL

/-- A constraint is posted, or nothing happens. -/
theorem keeps_postPrimitive (hg : g.Consistent) (hknown : c.KnownTo g.registry)
    (hplain : c.Plain scope) :
    Keeps g (postPrimitive c) fun posted g' => if posted then Posts scope g g' c else g' = g := by
  by_cases hc : IsDirect c
  · refine (keeps_postPrimitive_of_direct hc hg hknown hplain).weaken fun posted g' _ _ h => ?_
    obtain ⟨rfl, hsettles⟩ := h
    exact hsettles.posts hg
  simp only [IsDirect, not_or] at hc
  obtain ⟨hreifiable, himplication, hdistinct⟩ := hc
  have hnothing : Keeps g (return false) fun posted g' =>
      if posted then Posts scope g g' c else g' = g := Keeps.pure fun _ => rfl
  cases c with
  | literal l => exact absurd rfl hreifiable
  | constant value => exact absurd rfl hreifiable
  | connective kind args =>
      have hatoms : ¬ args.all (·.isAtom) = true := hreifiable
      rw [postPrimitive, if_neg hatoms]
      exact hnothing
  | implication a b => exact absurd ⟨a, b, rfl⟩ himplication
  | comparison comparator lhs rhs =>
      have hatoms : ¬ (lhs.isAtom && rhs.isAtom) = true := hreifiable
      by_cases hequal : comparator = .equal
      · subst hequal
        exact keeps_postEquality hg hatoms hknown hplain
      · rw [postPrimitive, if_neg hatoms, if_pos hequal]
        exact hnothing
  | global global =>
      cases global with
      | allDifferent args =>
          rw [postPrimitive, if_neg fun hatoms => hdistinct ⟨args, rfl, hatoms⟩]
          exact hnothing
      | _ => exact hnothing

/-- Constraints that are posted one after the other are all imposed. What each of them keeps, all
of them keep. -/
theorem keeps_forM {action : Constraint → Action Unit} {cs : List Constraint}
    {P : Account → Prop} (hknown : ∀ c ∈ cs, c.KnownTo g.registry)
    (h : ∀ c ∈ cs, ∀ g', g.Grows g' → g'.Consistent →
      Keeps g' (action c) fun _ g'' => Posts scope g' g'' c ∧ (P g' → P g'')) :
    Keeps g (cs.forM action) fun _ g' =>
      Imposes scope g g' (fun τ => ∀ c ∈ cs, ¬ c.Fails τ) (fun τ => ∀ c ∈ cs, c.Realised τ) ∧
        (P g → P g') := by
  induction cs generalizing g with
  | nil => exact Keeps.pure fun _ => ⟨(Imposes.refl scope g).weaken (by simp) (by simp), id⟩
  | cons c cs ih =>
      obtain ⟨hknown, hknowns⟩ := List.forall_mem_cons.mp hknown
      rw [List.forM_eq_forM, List.forM_cons]
      intro s hs
      refine (h c List.mem_cons_self g (.refl g) hs.consistent).bind
        (fun _ g₁ hle₁ hg₁ hfirst => ?_) s hs
      obtain ⟨hposts, hkeeps⟩ := hfirst
      have hrest := ih (fun c hc => (hknowns c hc).mono hle₁.registry) fun c hc g' hle =>
        h c (List.mem_cons_of_mem _ hc) g' (hle₁.trans hle)
      refine hrest.weaken fun _ g₂ hle₂ _ hrest => ⟨?_, fun hP => hrest.2 (hkeeps hP)⟩
      apply hposts.append hrest.1 hg₁ hle₁ hle₂
      · exact fun τ _ hc hcs => List.forall_mem_cons.mpr ⟨hc, hcs⟩
      · exact fun τ hall => (List.forall_mem_cons.mp hall).1
      · intro τ τ' _ hall hagree c hc
        exact ((List.forall_mem_cons.mp hall).2 c hc).agree (hknowns c hc) hagree

theorem keeps_postNested (depth : Nat) (hknown : c.KnownTo g.registry) (hplain : c.Plain scope) :
    Keeps g (postNested depth c) fun _ g' => Posts scope g g' c := by
  induction depth generalizing g c with
  | zero => exact Keeps.refuse
  | succ depth ih =>
      intro s hs
      have hg := hs.consistent
      refine (keeps_postPrimitive hg hknown hplain).bind (fun posted g₁ hle₁ hg₁ h => ?_) s hs
      cases posted with
      | true => exact Keeps.pure fun _ => h
      | false =>
          obtain rfl : g₁ = g := h
          refine (Keeps.fresh (makes_decompose hknown hplain)).bind
            fun pieces g₂ hle₂ hg₂ h => ?_
          obtain ⟨r, rfl, hpieces⟩ := h
          cases pieces with
          | none => exact Keeps.refuse
          | some pieces =>
              have hencodes := hpieces pieces rfl
              refine Keeps.note.bind fun _ g₃ _ hg₃ heq => ?_
              subst heq
              have hposts := keeps_forM (g := g₁.know r) (P := fun _ => True) hencodes.known
                fun c hc g' hle _ => (ih ((hencodes.known c hc).mono hle.registry)
                  (hencodes.plain c hc)).weaken fun _ _ _ _ h => ⟨h, id⟩
              exact hposts.weaken fun _ g' hle' _ h =>
                Imposes.of_encodes hencodes hg₁ hle₂.registry h.1 hle'

/-- A constraint that is posted is imposed. -/
theorem keeps_post_constraint (hknown : c.KnownTo g.registry) (hplain : c.Plain scope) :
    Keeps g (post c) fun _ g' => Posts scope g g' c :=
  keeps_postNested _ hknown hplain

/-- A constraint with a propagator of its own is settled. -/
theorem keeps_post_of_direct (hc : IsDirect c) (hknown : c.KnownTo g.registry)
    (hplain : c.Plain scope) : Keeps g (post c) fun _ g' => Settles g g' c := by
  intro s hs
  refine (keeps_postPrimitive_of_direct hc hs.consistent hknown hplain).bind
    (fun posted g₁ _ _ h => ?_) s hs
  obtain ⟨rfl, hsettles⟩ := h
  exact Keeps.pure fun _ => hsettles

end FiniteDomain.InProcess
