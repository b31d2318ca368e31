import FiniteDomain.InProcess.Backend
import FiniteDomain.Proofs.InProcess.Primitives

/-!
# What lowering ends with

Posting a constraint from any state between two calls ends in such a state again, and what was
posted before still stands, also if the constraint is refused. It is posted only if it is accepted,
and is refused only if it is not, or has a sum with too few or too many weights; it never overflows
if it is moderate and all earlier linear equalities are bounded. When it is posted, the variables
that it binds have views, unless the engine can find no solution any more. Binding a variable,
setting the objective and solving lead to such states as well.
-/

namespace FiniteDomain.InProcess

open Engine (Propagator Running Tightens Bounded)

variable {s s' s'' : Lowering.State InProcess} {c p : Constraint} {cs ps : List Constraint}
  {r : EStateM.Result Stop (Lowering.State InProcess) Unit} {objective : Expr}
  {direction : Direction} {options : SolveOptions}

/-! ## Two states -/

/-- What was posted and found before still stands. -/
structure Later (s s' : Lowering.State InProcess) : Prop where
  keeping : Keeping s s'
  tightens : Tightens s.backend.engine s'.backend.engine

theorem Later.trans (h : Later s s') (h' : Later s' s'') : Later s s'' where
  keeping := fun id v hv => h'.keeping id v (h.keeping id v hv)
  tightens := h.tightens.trans h'.tightens

theorem later_of_backend (h : s'.backend = s.backend) : Later s s' where
  keeping := fun _ _ hv => h ▸ hv
  tightens := h ▸ .refl _

theorem Meets.later {xs : List Variable} (h : Meets xs s s') : Later s s' :=
  ⟨h.keeping, h.widens.tightens⟩

/-- No value of any variable is a solution any more. -/
def falsum : Propagator := { rule := .disjunction [.constant 0] }

theorem created_falsum {store : Engine.Store} : falsum.Created store :=
  created_of_views (List.forall_mem_singleton.mpr fun x hx => by cases hx) (by simp)

/-- The engine has found a contradiction, or was told that something false holds. -/
def Doomed (s : Lowering.State InProcess) : Prop :=
  s.backend.engine.infeasible = true ∨ falsum ∈ s.backend.engine.propagators

theorem Later.doomed (h : Later s s') (hs : Doomed s) : Doomed s' :=
  hs.imp h.tightens.infeasible (h.tightens.propagators _)

theorem Later.met {x : Variable} (h : Later s s') (hs : Met s x) : Met s' x :=
  hs.imp fun v hv => h.keeping x.id v hv

/-! ## Posting -/

/-- Posting a propagator comes to rest, and overflows only if something is not bounded. -/
def Posted (q : Propagator) (s : Lowering.State InProcess) :
    EStateM.Result Stop (Lowering.State InProcess) Unit → Prop
  | .ok _ s' => Ready s' ∧ Later s s' ∧
      (s'.backend.engine.infeasible = true ∨ q ∈ s'.backend.engine.propagators) ∧
      (q.Bounded → Bounded s.backend.engine → Bounded s'.backend.engine)
  | .error .overflow _ => ¬ (q.Bounded ∧ Bounded s.backend.engine)
  | .error (.error _) _ => False

theorem posted_post {q : Propagator} (hs : Ready s) (hq : q.Created s.backend.engine.store) :
    Posted q s (onEngine (Running.post q) s) := by
  have he : Engine.Resting { s.backend.engine with journal := #[] } := hs.resting.journal #[]
  have hcalmed := Engine.calmed_post he hq
  simp only [onEngine]
  generalize hrun : Running.post q { s.backend.engine with journal := #[] } = r at hcalmed
  rcases r with ⟨_, e'⟩ | ⟨f, e'⟩
  · obtain ⟨hrest, hsize, hbounded⟩ := hcalmed
    obtain ⟨htight, hposted⟩ := Engine.tightens_post he hq hrun
    exact ⟨hs.resume hrest hsize rfl,
      ⟨fun _ _ => id, htight.infeasible, htight.propagators, htight.admits⟩, hposted, hbounded⟩
  · exact fun h => hcalmed.2 h.symm

/-- What posting constraints one after the other leads to, whether all of them are posted or not. -/
structure Leads (cs : List Constraint) (s s' : Lowering.State InProcess) : Prop where
  ready : Ready s'
  later : Later s s'
  bounded : (∀ c ∈ cs, c.Moderate) → Bounded s.backend.engine → Bounded s'.backend.engine

/-- What posting constraints one after the other ends with. -/
def Lowered (cs : List Constraint) (s : Lowering.State InProcess) :
    EStateM.Result Stop (Lowering.State InProcess) Unit → Prop
  | .ok _ s' => Leads cs s s' ∧ (∀ c ∈ cs, c.Accepted) ∧ ∀ x, Covers cs x → Met s' x ∨ Doomed s'
  | .error (.error _) s' => Leads cs s s' ∧ ¬ ∀ c ∈ cs, c.Balanced ∧ c.Accepted
  | .error .overflow _ => ¬ ((∀ c ∈ cs, c.Moderate) ∧ Bounded s.backend.engine)

/-- A propagator that is posted for a constraint after variables were met. -/
theorem lowered_of_posted {xs : List Variable} {q : Propagator} (hmeets : Meets xs s s')
    (hposted : Posted q s' r) (haccepted : c.Accepted) (hbounded : c.Moderate → q.Bounded)
    (hcovers : ∀ x, Covers [c] x → x ∈ xs ∨ q = falsum) : Lowered [c] s r := by
  rcases r with ⟨_, s''⟩ | ⟨_ | _, s''⟩
  · obtain ⟨hready, hlater, hdoomed, hkept⟩ := hposted
    refine ⟨⟨hready, hmeets.later.trans hlater, fun hall he => ?_⟩,
      List.forall_mem_singleton.mpr haccepted, fun x hx => (hcovers x hx).imp (fun hx => ?_) ?_⟩
    · exact hkept (hbounded (hall c List.mem_cons_self)) (hmeets.widens.bounded he)
    · exact hlater.met (hmeets.met x hx)
    · rintro rfl
      exact hdoomed
  · exact hposted.elim
  · exact fun h => hposted ⟨hbounded (h.1 c List.mem_cons_self), hmeets.widens.bounded h.2⟩

/-- A constraint with a propagator. -/
theorem lowered_of_direct (h : Direct c s r) : Lowered [c] s r := by
  cases h with
  | refused hnot hmeets =>
      exact ⟨⟨hmeets.ready, hmeets.later, fun _ => hmeets.widens.bounded⟩,
        fun hall => hnot (hall c List.mem_cons_self)⟩
  | failed hc hmeets =>
      subst hc
      have hposted : Posted falsum _ _ := posted_post hmeets.ready created_falsum
      exact lowered_of_posted hmeets hposted (.atom rfl) (fun _ => trivial) fun _ _ => .inr rfl
  | posted haccepted hne hposting =>
      obtain ⟨s₁, q, hmeets, hq, hbounded, rfl⟩ := hposting
      refine lowered_of_posted hmeets (posted_post hmeets.ready hq) haccepted hbounded fun x hx => .inl ?_
      rcases hx with hfalse | ⟨d, hd, hx⟩
      · exact absurd (List.mem_singleton.mp hfalse).symm hne
      · obtain rfl := List.mem_singleton.mp hd
        exact Constraint.bound_subset _ hx

/-! ## Decompositions -/

theorem Leads.trans (h : Leads cs s s') (h' : Leads ps s' s'') : Leads (cs ++ ps) s s'' where
  ready := h'.ready
  later := h.later.trans h'.later
  bounded := fun hall he => by
    obtain ⟨hcs, hps⟩ := List.forall_mem_append.mp hall
    exact h'.bounded hps (h.bounded hcs he)

/-- Constraints are posted one after the other. -/
theorem lowered_forM (h : ∀ c ∈ cs, ∀ {s}, Ready s → Lowered [c] s (post c s)) (hs : Ready s) :
    Lowered cs s (cs.forM post s) := by
  induction cs generalizing s with
  | nil =>
      refine ⟨⟨hs, later_of_backend rfl, fun _ => id⟩, by simp, fun x hx => ?_⟩
      rcases hx with h | ⟨p, hp, -⟩
      · cases h
      · cases hp
  | cons c cs ih =>
      obtain ⟨hfirst, hrest⟩ := List.forall_mem_cons.mp h
      have hfirst := hfirst hs
      rw [forM_cons_apply]
      match post c s, hfirst with
      | .error .overflow s', hlong =>
        exact fun hall => hlong ⟨List.forall_mem_singleton.mpr (hall.1 c List.mem_cons_self), hall.2⟩
      | .error (.error e) s', ⟨hleads, hnot⟩ =>
        refine ⟨⟨hleads.ready, hleads.later, fun hall => ?_⟩, fun hall => hnot ?_⟩
        · exact hleads.bounded (List.forall_mem_singleton.mpr (hall c List.mem_cons_self))
        · exact List.forall_mem_singleton.mpr (hall c List.mem_cons_self)
      | .ok _ s', ⟨hleads, haccepted, hmet⟩ =>
        have hcs := ih hrest hleads.ready
        simp only
        match cs.forM post s', hcs with
        | .error .overflow s'', hlong =>
          refine fun hall => hlong ?_
          obtain ⟨hc, hall'⟩ := List.forall_mem_cons.mp hall.1
          exact ⟨hall', hleads.bounded (List.forall_mem_singleton.mpr hc) hall.2⟩
        | .error (.error e) s'', ⟨hleads', hnot⟩ =>
          exact ⟨hleads.trans hleads', fun hall => hnot (List.forall_mem_cons.mp hall).2⟩
        | .ok _ s'', ⟨hleads', haccepted', hmet'⟩ =>
          refine ⟨hleads.trans hleads', List.forall_mem_append.mpr ⟨haccepted, haccepted'⟩,
            fun x hx => ?_⟩
          rcases covers_cons_iff.mp hx with hx | hx
          · exact (hmet x hx).imp hleads'.later.met hleads'.later.doomed
          · exact hmet' x hx

/-- The pieces of a constraint are posted in its place. -/
theorem Lowered.of_pieces (h : Lowered ps s' r) (hbackend : s'.backend = s.backend)
    (hmoderate : c.Moderate → ∀ p ∈ ps, p.Moderate) (haccepted : (∀ p ∈ ps, p.Accepted) → c.Accepted)
    (hall : c.Balanced → c.Accepted → ∀ p ∈ ps, p.Balanced ∧ p.Accepted)
    (hcovers : ∀ x, Covers [c] x → Covers ps x) : Lowered [c] s r := by
  have hleads : ∀ {s''}, Leads ps s' s'' → Leads [c] s s'' := fun hleads =>
    ⟨hleads.ready, (later_of_backend hbackend).trans hleads.later, fun h he =>
      hleads.bounded (hmoderate (h c List.mem_cons_self)) (hbackend ▸ he)⟩
  match r, h with
  | .error .overflow _, hlong =>
    exact fun h => hlong ⟨hmoderate (h.1 c List.mem_cons_self), hbackend ▸ h.2⟩
  | .error (.error e) _, ⟨h, hnot⟩ =>
    refine ⟨hleads h, fun h => hnot ?_⟩
    obtain ⟨hbalanced, haccepted⟩ := h c List.mem_cons_self
    exact hall hbalanced haccepted
  | .ok _ _, ⟨h, hps, hmet⟩ =>
    exact ⟨hleads h, List.forall_mem_singleton.mpr (haccepted hps), fun x hx => hmet x (hcovers x hx)⟩

/-- Only what a constraint binds is covered by it, unless it is false. -/
theorem mem_bound_of_covers {x : Variable} (hc : c.isComposite = true) (hx : Covers [c] x) :
    x ∈ c.bound := by
  rcases hx with hfalse | ⟨d, hd, hx⟩
  · obtain rfl := List.mem_singleton.mp hfalse
    cases hc
  · obtain rfl := List.mem_singleton.mp hd
    exact hx

/-- Posting a constraint. -/
theorem lowered_post (hs : Ready s) (c : Constraint) : Lowered [c] s (post c s) := by
  induction hdepth : c.depth using Nat.strong_induction_on generalizing c s with
  | _ depth ih =>
  subst hdepth
  cases hc : c.isComposite with
  | false =>
      rw [post_of_simple hc]
      exact lowered_of_direct (direct_postSimple hs hc)
  | true =>
      have hpieces : ∀ {ps s'}, (∀ p ∈ ps, p.depth < c.depth) → s'.backend = s.backend →
          Lowered ps s' (ps.forM post s') := fun hless hbackend =>
        lowered_forM (fun p hp _ hs => ih p.depth (hless p hp) hs p rfl) (hs.of_backend hbackend)
      rw [post_of_composite hc]
      by_cases hand : ∃ args, c = .connective .and args
      · obtain ⟨args, rfl⟩ := hand
        have hrun : (Constraint.connective .and args).decompose.run s.nextId = (some args, s.nextId) := by
          rw [decompose_and hc]
          rfl
        rw [postPieces_of_some hrun]
        refine Lowered.of_pieces (hpieces (depth_lt_of_decompose hc (congrArg Prod.fst hrun)) ?_)
          ?_ ?_ ?_ ?_ fun x hx => .inr ?_
        · rfl
        · rfl
        · exact Constraint.everywhereIn_iff.mp
        · exact Constraint.accepted_and_iff.mpr
        · exact fun hbalanced haccepted p hp => ⟨Constraint.everywhereIn_iff.mp hbalanced p hp,
            Constraint.accepted_and_iff.mp haccepted p hp⟩
        · exact Constraint.mem_boundIn.mp (mem_bound_of_covers hc hx)
      · have hends := ends_decompose hc (fun args h => hand ⟨args, h⟩) s.nextId
        rcases hrun : c.decompose.run s.nextId with ⟨_ | ps, nextId⟩
        · have hnot : ¬ c.Accepted := by simpa only [hrun] using hends
          rw [postPieces_of_none hrun]
          exact ⟨⟨hs.of_backend rfl, later_of_backend rfl, fun _ => id⟩,
            fun h => hnot (h c List.mem_cons_self).2⟩
        · have hyields : c.Accepted ∧ Yields c c.bound ps := by simpa only [hrun] using hends
          obtain ⟨haccepted, hyields⟩ := hyields
          have hless : ∀ p ∈ ps, p.depth < c.depth := fun p hp => (hyields.isPiece p hp).depth_lt
          rw [postPieces_of_some hrun]
          refine Lowered.of_pieces (hpieces hless ?_) ?_ ?_ (fun _ => haccepted) ?_ fun x hx => ?_
          · rfl
          · rfl
          · exact fun h p hp => (hyields.isPiece p hp).everywhere inherited_isModerate h
          · exact fun h _ p hp => ⟨(hyields.isPiece p hp).everywhere inherited_hasWeights h,
              (hyields.isPiece p hp).accepted⟩
          · exact hyields.covers x (mem_bound_of_covers hc hx)

/-- Posting constraints one after the other. -/
theorem lowered_posts (hs : Ready s) (cs : List Constraint) : Lowered cs s (cs.forM post s) :=
  lowered_forM (fun c _ _ hs => lowered_post hs c) hs

/-! ## What every call leads to -/

/-- The action ends in the second state, with a result or with an error that is reported. -/
def Ended {α : Type} (action : Action α) (s s' : Lowering.State InProcess) : Prop :=
  (∃ a, action s = .ok a s') ∨ ∃ e, action s = .error (.error e) s'

theorem leads_post (hs : Ready s) (h : Ended (post c) s s') : Leads [c] s s' := by
  have hlowered := lowered_post hs c
  rcases h with ⟨_, h⟩ | ⟨_, h⟩
  · rw [h] at hlowered
    exact hlowered.1
  · rw [h] at hlowered
    exact hlowered.1

theorem leads_bind {x : Variable} (hs : Ready s) (h : Ended (bind x) s s') : Leads [] s s' := by
  obtain ⟨i, s₁, hrun, hmeets, -⟩ := exists_bind hs x
  rcases h with ⟨_, h⟩ | ⟨_, h⟩
  · cases hrun.symm.trans h
    exact ⟨hmeets.ready, hmeets.later, fun _ => hmeets.widens.bounded⟩
  · cases hrun.symm.trans h

/-- An atom can be made the objective. -/
theorem exists_setObjective (hs : Ready s) (hatom : objective.isAtom = true) :
    ∃ v s₁, Meets objective.occurrences s s₁ ∧ Stands s₁ objective v ∧
      setObjective objective direction s = .ok () { s₁ with backend :=
        { s₁.backend with engine := s₁.backend.engine.setObjective direction v } } := by
  obtain ⟨v, s₁, hrun, hmeets, hv⟩ := exists_viewOf hs hatom
  refine ⟨v, s₁, hmeets, hv, ?_⟩
  rw [setObjective, bind_ok hrun]
  rfl

/-- Nothing else can be made the objective. -/
theorem setObjective_refused (hatom : objective.isAtom = false) :
    setObjective objective direction s = .error (.error (.expressionNotAtomic objective)) s := by
  cases objective with
  | atom a => cases hatom
  | _ => rfl

theorem leads_setObjective (hs : Ready s) (h : Ended (setObjective objective direction) s s') :
    Leads [] s s' := by
  cases hatom : objective.isAtom with
  | true =>
      obtain ⟨v, s₁, hmeets, hv, hrun⟩ := exists_setObjective hs hatom
      rcases h with ⟨_, h⟩ | ⟨_, h⟩
      · cases hrun.symm.trans h
        have hlater := hmeets.later
        exact ⟨⟨Engine.resting_setObjective hmeets.ready.resting hv.created direction,
          hmeets.ready.views⟩, ⟨hlater.keeping, hlater.tightens.infeasible,
          hlater.tightens.propagators, hlater.tightens.admits⟩, fun _ => hmeets.widens.bounded⟩
      · cases hrun.symm.trans h
  | false =>
      have hrun : setObjective objective direction s = .error (.error _) s :=
        setObjective_refused hatom
      rcases h with ⟨_, h⟩ | ⟨_, h⟩
      · cases hrun.symm.trans h
      · cases hrun.symm.trans h
        exact ⟨hs, later_of_backend rfl, fun _ => id⟩

/-- The variables of the objective are met. -/
theorem met_of_setObjective (hs : Ready s) (h : setObjective objective direction s = .ok () s') :
    ∀ x ∈ objective.occurrences, Met s' x := by
  cases hatom : objective.isAtom with
  | true =>
      obtain ⟨v, s₁, hmeets, -, hrun⟩ := exists_setObjective hs hatom
      cases hrun.symm.trans h
      exact hmeets.met
  | false => cases (setObjective_refused hatom).symm.trans h

theorem leads_solve (hs : Ready s) (h : Ended (solve options) s s') : Leads [] s s' := by
  by_cases hlimit : options.timeLimit.isSome = true
  · have hrun : solve options s = .error (.error .timeLimitUnsupported) s := by
      rw [solve, if_pos hlimit]
      rfl
    rcases h with ⟨_, h⟩ | ⟨_, h⟩
    · cases hrun.symm.trans h
    · cases hrun.symm.trans h
      exact ⟨hs, later_of_backend rfl, fun _ => id⟩
  have he : Engine.Resting { s.backend.engine with journal := #[] } := hs.resting.journal #[]
  have hcalmed := Engine.calmed_solve he
  rw [Ended, solve, if_neg hlimit] at h
  simp only [onEngine, Bind.bind, EStateM.bind] at h
  generalize hrun : Running.solve { s.backend.engine with journal := #[] } = r at hcalmed h
  rcases r with ⟨outcome, e'⟩ | ⟨f, e'⟩
  · obtain ⟨hrest, hsize, hbounded⟩ := hcalmed
    have htight := Engine.tightens_solve he hrun
    rcases h with ⟨_, h⟩ | ⟨_, h⟩
    · cases h
      exact ⟨hs.resume hrest hsize rfl,
        ⟨fun _ _ => id, htight.infeasible, htight.propagators, htight.admits⟩,
        fun _ => hbounded trivial⟩
    · cases h
  · rcases h with ⟨_, h⟩ | ⟨_, h⟩ <;> cases h

end FiniteDomain.InProcess
