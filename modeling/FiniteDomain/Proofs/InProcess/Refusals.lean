import FiniteDomain.Proofs.InProcess.Lowering

/-!
# What a refused constraint leaves behind

The pieces of a constraint are posted one after the other, up to the first one that is refused, and
what is posted stays. So a refused constraint leaves behind what the pieces before that one demand,
and those before what is refused of it. With one weight for every term only conjunctions have pieces
that are refused, so any other constraint leaves the models of the engine as they are.
-/

namespace FiniteDomain.InProcess

open Engine (Propagator Running IsModel)

variable {s s' bound : Lowering.State InProcess} {c : Constraint} {cs : List Constraint}
  {e : LoweringError} {τ : VarId → Int} {r : EStateM.Result Stop (Lowering.State InProcess) Unit}

/-- When a constraint is refused, what comes before the piece that is refused has led to the second
state. -/
inductive Leaves : Constraint → Lowering.State InProcess → Lowering.State InProcess → Prop
  | whole {c : Constraint} {s : Lowering.State InProcess} : ¬ (c.Balanced ∧ c.Accepted) →
      (c.isComposite = true → (c.decompose.run s.nextId).1 = none) → Leaves c s s
  | piece {c p : Constraint} {before after : List Constraint} {nextId : VarId}
      {s s₁ s₂ : Lowering.State InProcess} : c.isComposite = true →
      c.decompose.run s.nextId = (some (before ++ p :: after), nextId) →
      before.forM post (decomposed c (before ++ p :: after) nextId s) = .ok () s₁ →
      Leaves p s₁ s₂ → Leaves c s s₂

/-- The first of the constraints that is refused, and what was posted before it. -/
theorem refused_forM
    (h : ∀ c ∈ cs, ∀ {s s' e}, Ready s → post c s = .error (.error e) s' →
      ∃ s₁, Leaves c s s₁ ∧ Meets [] s₁ s')
    (hs : Ready s) (hrun : cs.forM post s = .error (.error e) s') :
    ∃ before p after s₁ s₂, cs = before ++ p :: after ∧ before.forM post s = .ok () s₁ ∧
      Leaves p s₁ s₂ ∧ Meets [] s₂ s' := by
  induction cs generalizing s with
  | nil => cases hrun
  | cons c cs ih =>
      obtain ⟨hfirst, hrest⟩ := List.forall_mem_cons.mp h
      have hlowered := lowered_post hs c
      rw [forM_cons_apply] at hrun
      match hpost : post c s, hlowered, hrun with
      | .error stop s₂, _, hrun =>
        cases hrun
        obtain ⟨s₁, hleaves, hmeets⟩ := hfirst hs hpost
        exact ⟨[], c, cs, s, s₁, rfl, rfl, hleaves, hmeets⟩
      | .ok _ s₂, ⟨hleads, _⟩, hrun =>
        obtain ⟨before, p, after, s₃, s₄, rfl, hposted, hleaves, hmeets⟩ := ih hrest hleads.ready hrun
        refine ⟨c :: before, p, after, s₃, s₄, rfl, ?_, hleaves, hmeets⟩
        rw [forM_cons_apply, hpost]
        exact hposted

theorem not_accepted_of_refused (hs : Ready s) (hrun : post c s = .error (.error e) s') :
    ¬ (c.Balanced ∧ c.Accepted) := fun h => by
  have hlowered := lowered_post hs c
  rw [hrun] at hlowered
  exact hlowered.2 (List.forall_mem_singleton.mpr h)

/-- A constraint with a propagator is refused before anything is posted. -/
theorem Direct.meets (h : Direct c s r) (hr : r = .error (.error e) s') : Meets [] s s' := by
  have hposted : ∀ {q : Propagator} {s₁}, Ready s₁ → q.Created s₁.backend.engine.store →
      onEngine (Running.post q) s₁ ≠ .error (.error e) s' := fun hs hq h => by
    have hposted := posted_post hs hq
    rw [h] at hposted
    exact hposted
  cases h with
  | posted _ _ hposting =>
      obtain ⟨s₁, q, hmeets, hq, -, rfl⟩ := hposting
      exact absurd hr (hposted hmeets.ready hq)
  | failed _ hmeets => exact absurd hr (hposted hmeets.ready created_falsum)
  | refused _ hmeets =>
      cases hr
      exact hmeets

/-- A refused constraint leaves what was posted before what is refused, and nothing else but
variables of the engine. -/
theorem refused_post (hs : Ready s) (hrun : post c s = .error (.error e) s') :
    ∃ s₁, Leaves c s s₁ ∧ Meets [] s₁ s' := by
  -- pieces are no subterms, so the induction is on the depth
  induction hdepth : c.depth using Nat.strong_induction_on generalizing c s s' e with
  | _ depth ih =>
  subst hdepth
  have hnot := not_accepted_of_refused hs hrun
  cases hc : c.isComposite with
  | false =>
      rw [post_of_simple hc] at hrun
      exact ⟨s, .whole hnot (by simp [hc]), (direct_postSimple hs hc).meets hrun⟩
  | true =>
      rw [post_of_composite hc] at hrun
      rcases hpieces : c.decompose.run s.nextId with ⟨_ | ps, nextId⟩
      · rw [postPieces_of_none hpieces] at hrun
        cases hrun
        exact ⟨s, .whole hnot fun _ => congrArg Prod.fst hpieces, (Meets.refl hs).of_backend rfl⟩
      · have hready : Ready (decomposed c ps nextId s) := hs.of_backend rfl
        have hless := depth_lt_of_decompose hc (congrArg Prod.fst hpieces)
        rw [postPieces_of_some hpieces] at hrun
        obtain ⟨before, p, after, s₁, s₂, rfl, hposted, hleaves, hmeets⟩ :=
          refused_forM (fun p hp _ _ _ hs hrun => ih p.depth (hless p hp) hs hrun rfl) hready hrun
        exact ⟨s₂, .piece hc hpieces hposted hleaves, hmeets⟩

/-! ## What is refused -/

theorem accepted_pieces {n : VarId} (hc : c.isComposite = true)
    (hpieces : (c.decompose.run n).1 = some cs) (hbalanced : c.Balanced) (haccepted : c.Accepted) :
    ∀ p ∈ cs, p.Balanced ∧ p.Accepted := fun p hp => by
  by_cases hand : ∃ args, c = .connective .and args
  · obtain ⟨args, rfl⟩ := hand
    rw [decompose_and hc] at hpieces
    obtain rfl : args = cs := Option.some.inj hpieces
    exact ⟨Constraint.everywhereIn_iff.mp hbalanced p hp, Constraint.accepted_and_iff.mp haccepted p hp⟩
  · have hends := ends_decompose hc (fun args h => hand ⟨args, h⟩) n
    rw [hpieces] at hends
    have hpiece := hends.2.isPiece p hp
    exact ⟨hpiece.everywhere inherited_hasWeights hbalanced, hpiece.accepted⟩

theorem Leaves.refused (h : Leaves c s s') : ¬ (c.Balanced ∧ c.Accepted) := by
  induction h with
  | whole hnot _ => exact hnot
  | piece hc hpieces _ _ ih =>
      rintro ⟨hbalanced, haccepted⟩
      refine ih (accepted_pieces hc (congrArg Prod.fst hpieces) hbalanced haccepted _ ?_)
      exact List.mem_append_right _ List.mem_cons_self

/-- With one weight for every term a constraint that is no conjunction is refused before anything is
posted. -/
theorem Leaves.eq (h : Leaves c s s') (hbalanced : c.Balanced)
    (hand : ∀ args, c ≠ .connective .and args) : s' = s := by
  have hnot := h.refused
  cases h with
  | whole => rfl
  | piece hc hpieces _ _ =>
      have hends := ends_decompose hc hand s.nextId
      rw [hpieces] at hends
      exact absurd ⟨hbalanced, hends.1⟩ hnot

/-- Two ways to split a list at a member are the same if neither member comes before the other. -/
theorem eq_of_append_cons {first before rest after : List Constraint} {q p : Constraint}
    (h : first ++ q :: rest = before ++ p :: after) (hq : q ∉ before) (hp : p ∉ first) :
    first = before ∧ q = p := by
  induction first generalizing before with
  | nil =>
      cases before with
      | nil => exact ⟨rfl, (List.cons.inj h).1⟩
      | cons d before => exact absurd ((List.cons.inj h).1 ▸ List.mem_cons_self) hq
  | cons d first ih =>
      cases before with
      | nil => exact absurd ((List.cons.inj h).1 ▸ List.mem_cons_self) hp
      | cons e before =>
          obtain ⟨rfl, hrest⟩ := List.cons.inj h
          obtain ⟨rfl, rfl⟩ := ih hrest (List.not_mem_of_not_mem_cons hq) (List.not_mem_of_not_mem_cons hp)
          exact ⟨rfl, rfl⟩

/-- A conjunction is posted up to its first part that is not accepted. If that part is no conjunction
itself, what the parts before it demand is all that stays. -/
theorem Leaves.posted_and {args before after : List Constraint} {p : Constraint}
    (h : Leaves (.connective .and args) s s') (hs : Ready s)
    (hc : (Constraint.connective .and args).isComposite = true) (hargs : args = before ++ p :: after)
    (hbefore : ∀ d ∈ before, d.Balanced ∧ d.Accepted) (hbalanced : p.Balanced)
    (hnot : ¬ p.Accepted) (hand : ∀ args, p ≠ .connective .and args) :
    ∃ nextId, before.forM post (decomposed (.connective .and args) args nextId s) = .ok () s' := by
  have hdecompose : (Constraint.connective .and args).decompose.run s.nextId =
      (some args, s.nextId) := by
    rw [decompose_and hc]
    rfl
  cases h with
  | whole _ hnone => cases (hnone hc).symm.trans (congrArg Prod.fst hdecompose)
  | @piece _ q first rest nextId _ s₁ _ _ hpieces hposted hleaves =>
      have hsplit : first ++ q :: rest = args :=
        Option.some.inj (congrArg Prod.fst (hpieces.symm.trans hdecompose))
      rw [hsplit] at hposted
      have hready : Ready (decomposed (.connective .and args) args nextId s) := hs.of_backend rfl
      have hlowered := lowered_posts hready first
      rw [hposted] at hlowered
      -- all parts that were posted are accepted, and what is refused is not among the parts before
      obtain ⟨rfl, rfl⟩ := eq_of_append_cons (hsplit.trans hargs)
        (fun hq => hleaves.refused (hbefore q hq)) fun hp => hnot (hlowered.2.1 p hp)
      obtain rfl := hleaves.eq hbalanced hand
      exact ⟨nextId, hposted⟩

/-! ## Models -/

/-- The values of the variables bound in one state are those of a model of the engine in the
other. -/
def Permits (bound s : Lowering.State InProcess) (τ : VarId → Int) : Prop :=
  ∃ a, IsModel s.backend.engine a ∧ ∀ id v, bound.backend.views.lookup id = some v → v.eval a = τ id

theorem Later.permits (h : Later s s') (hτ : Permits bound s' τ) : Permits bound s τ := by
  obtain ⟨a, ha, hviews⟩ := hτ
  exact ⟨a, h.tightens.isModel ha, hviews⟩

/-- New variables of the engine do not matter. -/
theorem Meets.permits_iff {xs : List Variable} (h : Meets xs s s') (hs : Ready s)
    (hkeeping : Keeping bound s) : Permits bound s' τ ↔ Permits bound s τ := by
  refine ⟨h.later.permits, ?_⟩
  rintro ⟨a, ha, hviews⟩
  obtain ⟨b, hb, hagree⟩ := h.widens.exists_isModel hs.resting.toGrounded h.ready.resting.proper ha
  refine ⟨b, hb, fun id v hv => ?_⟩
  obtain ⟨i, hi, rfl⟩ := hs.views id v (hkeeping id v hv)
  rw [← hviews id _ hv]
  exact (Engine.created_ofVar hi).eval_congr hagree

theorem Leaves.later (h : Leaves c s s') (hs : Ready s) : Ready s' ∧ Later s s' := by
  induction h with
  | whole => exact ⟨hs, later_of_backend rfl⟩
  | @piece c p before after nextId s s₁ s₂ _ _ hposted _ ih =>
      have hready : Ready (decomposed c (before ++ p :: after) nextId s) := hs.of_backend rfl
      have hbegun : Later s (decomposed c (before ++ p :: after) nextId s) := later_of_backend rfl
      have hlowered := lowered_posts hready before
      rw [hposted] at hlowered
      obtain ⟨hready', hlater⟩ := ih hlowered.1.ready
      exact ⟨hready', hbegun.trans (hlowered.1.later.trans hlater)⟩

/-- The models after a constraint was refused are those before what is refused. -/
theorem permits_of_refused (hs : Ready s) (hkeeping : Keeping bound s)
    (hrun : post c s = .error (.error e) s') :
    ∃ s₁, Leaves c s s₁ ∧ ∀ τ, Permits bound s' τ ↔ Permits bound s₁ τ := by
  obtain ⟨s₁, hleaves, hmeets⟩ := refused_post hs hrun
  obtain ⟨hready, hlater⟩ := hleaves.later hs
  exact ⟨s₁, hleaves, fun τ => hmeets.permits_iff hready fun id v hv =>
    hlater.keeping id v (hkeeping id v hv)⟩

end FiniteDomain.InProcess
