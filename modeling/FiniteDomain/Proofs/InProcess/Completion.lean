import FiniteDomain.Proofs.InProcess.Posting
import FiniteDomain.Proofs.InProcess.Termination

/-!
# Actions that have a result

A connective of atoms, and a comparison of atoms under a condition, can always be posted if
everything posted is small. Only their variables get a view.
-/

namespace FiniteDomain.InProcess

open Engine (View Propagator Rule Running)

/-- The action has a result, and only certain variables get a view. -/
def Completes {α : Type} (met : VarId → Prop) (g : Account) (action : Action α) : Prop :=
  ∀ s, Describes g s → ∃ a s', action s = .ok a s' ∧
    ∀ id, ¬ met id → s'.backend.views.lookup id = s.backend.views.lookup id

variable {α β : Type} {met : VarId → Prop} {g g₀ : Account} {action : Action α}
  {Q : α → Account → Prop} {scope : Scope}

theorem Completes.pure {a : α} : Completes met g (Pure.pure a) :=
  fun s _ => ⟨a, s, rfl, fun _ _ => rfl⟩

theorem Completes.note {event : Event} : Completes met g (Lowering.note event) :=
  fun _ _ => ⟨_, _, rfl, fun _ _ => rfl⟩

theorem Completes.bind {next : α → Action β} (h : Completes met g action) (hkeeps : Keeps g action Q)
    (hnext : ∀ a g', g.Grows g' → g'.Consistent → Q a g' → Completes met g' (next a)) :
    Completes met g (action >>= next) := by
  intro s hs
  obtain ⟨a, s₁, hrun₁, hframe₁⟩ := h s hs
  have hfirst := hkeeps s hs
  rw [hrun₁] at hfirst
  obtain ⟨g₁, hle, -, hs₁, ha⟩ := hfirst
  obtain ⟨b, s₂, hrun₂, hframe₂⟩ := hnext a g₁ hle hs₁.consistent ha s₁ hs₁
  refine ⟨b, s₂, ?_, fun id hid => (hframe₂ id hid).trans (hframe₁ id hid)⟩
  simp only [Bind.bind, EStateM.bind, hrun₁, hrun₂]

theorem completes_bind {x : Variable} (hx : met x.id) : Completes met g (bind x) := by
  intro s _
  cases hlookup : s.backend.views.lookup x.id with
  | some v =>
      refine ⟨v, s, ?_, fun _ _ => rfl⟩
      simp only [bind, Bind.bind, EStateM.bind, Lowering.getBackend_apply, hlookup]
      rfl
  | none =>
      obtain ⟨d, -, -, hcreated⟩ := exists_created x
      obtain ⟨s', hrun, hviews⟩ := hcreated s hlookup
      refine ⟨_, s', hrun, fun id hid => ?_⟩
      have hne : id ≠ x.id := fun h => hid (h ▸ hx)
      rw [hviews.views, List.lookup_cons, beq_false_of_ne hne]

theorem completes_viewOfAtom {a : Atom} (hknown : ∀ x ∈ a.vars, g.registry.Knows x)
    (hmet : ∀ x ∈ a.vars, met x.id) : Completes met g (viewOfAtom a) := by
  cases a with
  | int x => exact completes_bind (hmet _ List.mem_cons_self)
  | literal l =>
      exact (completes_bind (hmet (.bool l.var) List.mem_cons_self)).bind
        (keeps_bind (hknown _ List.mem_cons_self)) fun _ _ _ _ _ => .pure
  | constant value => exact .pure
  | bool value => exact .pure

theorem completes_literalsOf {cs : List Constraint} (hatoms : ∀ c ∈ cs, c.isAtom = true)
    (hknown : ∀ c ∈ cs, c.KnownTo g.registry) (hmet : ∀ c ∈ cs, ∀ x ∈ c.occurrences, met x.id) :
    Completes met g (cs.mapM literalOf) := by
  induction cs generalizing g with
  | nil => exact .pure
  | cons c cs ih =>
      obtain ⟨hatom, hatoms⟩ := List.forall_mem_cons.mp hatoms
      obtain ⟨hknownC, hknown⟩ := List.forall_mem_cons.mp hknown
      obtain ⟨hmetC, hmet⟩ := List.forall_mem_cons.mp hmet
      obtain ⟨a, ha⟩ := Constraint.isAtom_iff.mp hatom
      have hliteral : Completes met g (literalOf c) := by
        rw [literalOf, ha]
        exact completes_viewOfAtom (knownTo_asAtom ha hknownC) (vars_asAtom ha ▸ hmetC)
      rw [List.mapM_cons]
      refine hliteral.bind (keeps_literalOf hknownC) fun v g₁ hle _ _ => ?_
      have hknown₁ : ∀ c ∈ cs, c.KnownTo g₁.registry := fun c hc => (hknown c hc).mono hle.registry
      exact (ih hatoms hknown₁ hmet).bind (keeps_literalsOf hknown₁) fun _ _ _ _ _ => .pure

/-- Posting a propagator of which none is large. -/
theorem completes_post {p : Propagator} (hp : p.Exact g.declared) (hsmall : (g.post p).Small) :
    Completes met g (onEngine (Running.post p)) := by
  intro s hs
  have hpost := (tracks_journal hs.tracks #[]).post hp
  simp only [onEngine]
  generalize Running.post p { s.backend.engine with journal := #[] } = r at hpost
  rcases r with ⟨a, e'⟩ | ⟨f, e'⟩
  · exact ⟨a, _, rfl, fun _ _ => rfl⟩
  · exact absurd hsmall hpost.2

theorem small_of_binds (h : Binds g₀ g) (hg₀ : g₀.Consistent) (hsmall : g₀.Small) : g.Small := by
  intro p hp
  rw [h.posted_eq] at hp
  exact (Propagator.small_extend_iff (hg₀.exact p hp) h.grows.declared).mpr (hsmall p hp)

/-- A propagator that decides a constraint is posted, after an event. -/
theorem completes_noteSettle {event : Event} {rule : Rule} {condition : Option View}
    {c c' : Constraint} (h : Decides g rule c) (hguard : Guarded g condition c c')
    (hsmall : g.Small) :
    Completes met g (do
      Lowering.note event
      onEngine (Running.post { rule := rule, condition := condition })) := by
  refine Completes.note.bind .note fun _ g' _ _ heq => ?_
  subst heq
  have henforces : Enforces .words g' ⟨rule, condition⟩ c' := h.enforces hguard
  apply completes_post henforces.exact
  exact List.forall_mem_append.mpr ⟨hsmall, List.forall_mem_singleton.mpr h.small⟩

/-! ## Constraints over atoms -/

/-- A connective of atoms can be posted. -/
theorem completes_connective {kind : Connective} {args : List Constraint}
    (hatoms : args.all (·.isAtom) = true) (hg : g.Consistent) (hsmall : g.Small)
    (hknown : (Constraint.connective kind args).KnownTo g.registry)
    (hmet : ∀ x ∈ (Constraint.connective kind args).occurrences, met x.id) :
    Completes met g (post (.connective kind args)) := by
  have hargs := Constraint.knownTo_connective_iff.mp hknown
  have hpost : post (.connective kind args) = postConnective kind args none :=
    postNested_of_posted (by rw [postPrimitive, if_pos hatoms])
  rw [hpost]
  refine (completes_literalsOf (List.all_eq_true.mp hatoms) hargs fun c hc x hx => ?_).bind
    (keeps_literalsOf hargs) fun literals g₁ _ _ h => ?_
  · exact hmet x (Constraint.mem_occurrencesIn.mpr ⟨c, hc, hx⟩)
  · obtain ⟨hbinds, hliterals⟩ := h
    exact completes_noteSettle (decides_connective (hbinds.registry_eq ▸ hargs) hliterals)
      (.always _) (small_of_binds hbinds hg hsmall)

/-- A comparison of atoms can be posted if a Boolean is true. -/
theorem completes_implication {x : BoolVar} {a b : Atom} {comparator : Comparator}
    (hg : g.Consistent) (hsmall : g.Small) (hx : g.registry.Knows (.bool x)) (hmetX : met x.id)
    (hknown : (Constraint.comparison comparator (.atom a) (.atom b)).KnownTo g.registry)
    (hplain : (Constraint.comparison comparator (.atom a) (.atom b)).Plain scope)
    (hmet : ∀ y ∈ (Constraint.comparison comparator (.atom a) (.atom b)).occurrences, met y.id) :
    Completes met g (post (.implication (.ofVar x) (.comparison comparator (.atom a) (.atom b)))) := by
  have hpost : post (.implication (.ofVar x) (.comparison comparator (.atom a) (.atom b))) = (do
      let condition ← viewOfAtom (.literal (.ofVar x))
      postComparison comparator (.atom a) (.atom b) (some condition)) := postNested_of_posted rfl
  obtain ⟨hknownA, hknownB⟩ := Constraint.knownTo_comparison_iff.mp hknown
  have hvars : ∀ y ∈ (Atom.literal (.ofVar x)).vars, g.registry.Knows y ∧ met y.id :=
    List.forall_mem_singleton.mpr ⟨hx, hmetX⟩
  have hknownX : (Constraint.ofVar x).KnownTo g.registry := fun y hy => (hvars y hy).1
  have hplainX : (Atom.literal (.ofVar x)).Plain .words := trivial
  rw [hpost]
  refine (completes_viewOfAtom (fun y hy => (hvars y hy).1) fun y hy => (hvars y hy).2).bind
    (keeps_viewOfAtom (fun y hy => (hvars y hy).1) hplainX) fun condition g₁ hle₁ hg₁ h => ?_
  obtain ⟨hbinds₁, hcondition⟩ := h
  have hsignals : Signals g₁ (.ofVar x) condition := ⟨_, rfl, hcondition⟩
  have hknownA₁ := hknownA.mono hle₁.registry
  refine (completes_viewOfAtom hknownA₁ fun y hy => hmet y (List.mem_append_left _ hy)).bind
    (keeps_viewOf hknownA₁ hplain.1) fun v g₂ hle₂ hg₂ h => ?_
  obtain ⟨hbinds₂, hv⟩ := h
  have hknownB₂ := (hknownB.mono hle₁.registry).mono hle₂.registry
  refine (completes_viewOfAtom hknownB₂ fun y hy => hmet y (List.mem_append_right _ hy)).bind
    (keeps_viewOf hknownB₂ hplain.2) fun w g₃ hle₃ hg₃ h => ?_
  obtain ⟨hbinds₃, hw⟩ := h
  have hguard := Guarded.under (.comparison comparator (.atom a) (.atom b))
    (hbinds₁.registry_eq ▸ hknownX) hsignals
  have hbinds := (hbinds₁.trans hbinds₂).trans hbinds₃
  exact completes_noteSettle (decides_comparison (hv.mono hg₂ hle₃) hw)
    (hguard.mono hg₁ (hle₂.trans hle₃)) (small_of_binds hbinds hg hsmall)

end FiniteDomain.InProcess
