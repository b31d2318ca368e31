import FiniteDomain.Proofs.Engine.Posting
import FiniteDomain.Proofs.Engine.Resting

/-!
# Solving ends and restores the engine

The loop of propagation and the search are granted a number of steps. Here both are said without
one, as what a terminating run leads to, and with the steps that they are granted they end where
these runs do. For the loop this is because each run of a propagator takes it off the agenda or
costs slack, and for the search because both branches of a node have less slack than the node.

A search only ever loses values above the checkpoint that it opened. So whether it ends with a
solution, with none left or with a dead end, going back to its root gives back the store, and the
rest of the engine is as it was. All of this holds of views that leave the 64-bit range as well.
-/

namespace FiniteDomain.Engine

open Narrowing

variable {e e' : Engine} {p : Valuation → Prop} {action : Narrowing Unit} {consistent : Bool}
  {r : EStateM.Result Failure Engine Unit} {x : VarIndex} {value : Int} {fuel : Nat}

/-! ## Propagation -/

/-- The terminating runs of the loop of propagation: propagators run in turn until none is waiting
or one of them fails. -/
inductive Loops : Engine → EStateM.Result Failure Engine Unit → Prop
  | idle {e : Engine} : (wake e).agenda = [] → Loops e (.ok () (wake e))
  | run {e e' : Engine} {i : Nat} {rest : List Nat} {r : EStateM.Result Failure Engine Unit} :
      (wake e).agenda = i :: rest →
      Running.runPropagator i ((wake e).next i rest) = .ok () e' → Loops e' r → Loops e r
  | stop {e e' : Engine} {i : Nat} {rest : List Nat} {f : Failure} :
      (wake e).agenda = i :: rest →
      Running.runPropagator i ((wake e).next i rest) = .error f e' → Loops e (.error f e')

/-- Propagation is a terminating run of its loop. -/
theorem loops_propagate (hg : Grounded e) (hwait : e.Waiting) : Loops e (Running.propagate e) := by
  refine runWaiting_induct (I := fun e => Grounded e ∧ e.Waiting) (P := Loops) ?_ ?_ _
    ⟨hg, hwait⟩ (remaining_lt_of_waiting (waiting_wake hg.watchers_lt hwait))
  · exact fun e _ hnil => .idle hnil
  · rintro e i rest ⟨hg, hwait⟩ hcons
    have hnext := continues_runPropagator hg hwait hcons
    split
    · next e' hrun =>
      rw [hrun] at hnext
      exact ⟨hnext.1, hnext.2.1, fun r hr => .run hcons hrun hr⟩
    · next f e' hrun => exact .stop hcons hrun

/-- The loop of propagation comes to rest. -/
theorem Loops.rested (h : Loops e r) (hg : Grounded e) (hwait : e.Waiting) : Rested e r := by
  induction h with
  | idle hnil =>
      exact ⟨follows_wake _, (waiting_wake hg.watchers_lt hwait).drained hnil, rfl⟩
  | run hcons hrun _ ih =>
      have hnext := continues_runPropagator hg hwait hcons
      rw [hrun] at hnext
      obtain ⟨⟨hg', hwait'⟩, -, hfol⟩ := hnext
      exact (ih hg' hwait').of_follows hfol
  | stop hcons hrun =>
      have hnext := continues_runPropagator hg hwait hcons
      rwa [hrun] at hnext

/-- What propagation leads to, and whether this is consistent. -/
inductive Propagates (e : Engine) : Bool → Engine → Prop
  | consistent {e' : Engine} : Loops e (.ok () e') → Propagates e true e'
  | inconsistent {e' : Engine} : Loops e (.error .conflict e') → Propagates e false e'

theorem Propagates.rests (h : Propagates e consistent e') (hg : Grounded e) (hwait : e.Waiting) :
    Rests e e' := by
  cases h with
  | consistent hloops => exact hloops.rested hg hwait
  | inconsistent hloops => exact hloops.rested hg hwait

/-- Propagation ends, unless the terms of a linear equality are too large. -/
theorem propagates_propagate (hg : Grounded e) (hwait : e.Waiting) :
    match Running.succeeds Running.propagate e with
    | .ok consistent e' => Propagates e consistent e'
    | .error f _ => f = .overflow ∧ ¬ Bounded e := by
  have hloops := loops_propagate hg hwait
  have hrested := hloops.rested hg hwait
  simp only [Running.succeeds]
  generalize Running.propagate e = r at hloops hrested ⊢
  cases r with
  | ok _ e' => exact .consistent hloops
  | error f e' =>
      cases f with
      | conflict => exact .inconsistent hloops
      | overflow => exact ⟨rfl, hrested⟩

/-- What a narrowing and then propagation lead to, and whether this is consistent. -/
inductive Settles (action : Narrowing Unit) (e : Engine) : Bool → Engine → Prop
  | blocked {s : Store} : action e.store = .error .conflict s →
      Settles action e false (e.withStore s)
  | narrowed {s : Store} {consistent : Bool} {e' : Engine} : action e.store = .ok () s →
      Propagates (e.withStore s) consistent e' → Settles action e consistent e'

theorem waiting_withStore (h : e.Drained) (s : Store) : (e.withStore s).Waiting :=
  Drained.waiting (e := e.withStore s) h

/-- A narrowing that only loses values settles, unless the terms of a linear equality are too
large. -/
theorem settles_onStore (hg : Grounded e) (hdrained : e.Drained)
    (haction : Loses e.store True action fun _ => True) :
    match Running.succeeds (do Running.onStore action; Running.propagate) e with
    | .ok consistent e' => Settles action e consistent e'
    | .error f _ => f = .overflow ∧ ¬ Bounded e := by
  rw [succeeds_onStore_propagate]
  match hact : action e.store, haction e.store .refl with
  | .error .overflow s, hlong => exact absurd trivial hlong
  | .error .conflict s, hst => exact .blocked hact
  | .ok _ s, ⟨hst, _⟩ =>
    have hg' := (e.follows_withStore hst.yields).grounded hg
    simp only
    match Running.succeeds Running.propagate (e.withStore s),
      propagates_propagate hg' (waiting_withStore hdrained s) with
    | .ok _ e', hprop => exact .narrowed hact hprop
    | .error f e', hfail => exact hfail

namespace Settles

/-- Settling loses values at most, and leaves nothing waiting. -/
theorem follows (h : Settles action e consistent e') (hg : Grounded e) (hdrained : e.Drained)
    (haction : Loses e.store True action fun _ => True) : Follows e e' ∧ e'.Drained := by
  have hst := haction e.store .refl
  cases h with
  | blocked hact =>
      rw [hact] at hst
      exact ⟨e.follows_withStore hst.yields, hdrained⟩
  | narrowed hact hprop =>
      rw [hact] at hst
      have hfol := e.follows_withStore hst.1.yields
      have hrest := hprop.rests (hfol.grounded hg) (waiting_withStore hdrained _)
      exact ⟨hfol.trans hrest.toFollows, hrest.drained⟩

/-- What is true after the narrowing is true after propagating. -/
theorem admits (h : Settles action e true e') (hg : Grounded e) (hdrained : e.Drained)
    (haction : ∀ s, action e.store = .ok () s → e.store.Narrows s ∧ ∀ a, s.Admits a → p a) :
    Follows e e' ∧ ∀ a, e'.store.Admits a → p a := by
  cases h with
  | narrowed hact hprop =>
      obtain ⟨hst, hp⟩ := haction _ hact
      have hfol := e.follows_withStore hst.yields
      have hrest := hprop.rests (hfol.grounded hg) (waiting_withStore hdrained _)
      exact ⟨hfol.trans hrest.toFollows, fun a ha => hp a (hrest.yields.admits ha)⟩

end Settles

/-! ## The steps of the search -/

theorem created_ofVar {s : Store} (hx : x < s.numVariables) : (View.ofVar x).Created s := by
  rintro _ ⟨rfl⟩
  exact hx

/-- Demanding a better objective value loses values at most. -/
theorem loses_demand {s : Store} {objective : Option (Direction × View)} (hs : s.Proper)
    (hcreated : ∀ direction v, objective = some (direction, v) → v.Created s) (best : Option Int) :
    Loses s True (demand objective best) fun _ => True := by
  match objective, best with
  | none, _ => exact .pure trivial
  | some (.minimise, v), none => exact .pure trivial
  | some (.maximise, v), none => exact .pure trivial
  | some (.minimise, v), some old => exact loses_atMost hs (hcreated _ v rfl) _
  | some (.maximise, v), some old => exact loses_atLeast hs (hcreated _ v rfl) _

/-- Removes a value, and demands a better objective value. -/
def refutation (x : VarIndex) (value : Int) (objective : Option (Direction × View))
    (best : Option Int) : Narrowing Unit := do
  (View.ofVar x).remove value
  demand objective best

theorem loses_refutation (hg : Grounded e) (hx : x < e.store.numVariables) (value : Int)
    (best : Option Int) :
    Loses e.store True (refutation x value e.objective best) fun _ => True :=
  (loses_remove hg.proper (created_ofVar hx) value).bind fun _ _ =>
    loses_demand hg.proper hg.objective best

theorem succeeds_refute (x : VarIndex) (value : Int) (best : Option Int) (e : Engine) :
    Running.succeeds (Running.refute x value best) e =
      Running.succeeds (do Running.onStore (refutation x value e.objective best); Running.propagate)
        e := by
  simp only [Running.succeeds, refute_eq, refutation]

/-- After a refutation the value is gone. -/
theorem refutation_narrows {s : Store} (hg : Grounded e) (hx : x < e.store.numVariables)
    {best : Option Int} (hrun : refutation x value e.objective best e.store = .ok () s) :
    e.store.Narrows s ∧ ∀ a, s.Admits a → a x ≠ value := by
  have hremove := Store.restricts_remove hg.proper (View.exact_ofVar hg.proper hx).created value
  simp only [refutation, bind, EStateM.bind] at hrun
  split at hrun
  · next t hremoved =>
    rw [hremoved] at hremove
    obtain ⟨hst, hne⟩ := hremove
    have hcreated : ∀ direction v, e.objective = some (direction, v) → v.Created t :=
      fun direction v hv => (hg.objective direction v hv).mono hst.numVariables_eq.ge
    have hdemand := loses_demand (hst.proper hg.proper) hcreated best t .refl
    rw [hrun] at hdemand
    refine ⟨hst.trans hdemand.1, fun a ha => ?_⟩
    simpa using ((hne a).mp (hdemand.1.admits ha)).2
  · cases hrun

/-- A store with an unfixed variable can lose a value. -/
theorem slack_pos_of_unfixed {s : Store} (hs : s.Proper) (h : s.narrowestUnfixed = some x) :
    0 < s.slack := by
  obtain ⟨hx, hunfixed⟩ := narrowestUnfixed_spec h
  have hset : 0 < (s.set x).slack := Nat.sub_pos_of_lt ((hs x hx).one_lt_card hunfixed)
  exact hset.trans_le (Finset.single_le_sum (f := fun y => (s.set y).slack)
    (fun _ _ => Nat.zero_le _) (Finset.mem_range.mpr hx))

namespace Search

variable {s t u w : Search} {ending : Ending}

/-- Deciding a variable of a node: a checkpoint is opened, and the variable is fixed to its lower
bound. -/
inductive Decides (s : Search) (x : VarIndex) (consistent : Bool) : Search → Prop
  | intro {e : Engine} :
      Settles ((View.ofVar x).fix (s.engine.store.set x).lower)
        (opened s.engine x (s.engine.store.set x).lower) consistent e →
      Decides s x consistent (s.decided.withEngine e)

/-- Refuting the decision after its subtree is exhausted: the search goes back to the node, removes
the value, and demands a better objective value. -/
inductive Refutes (s : Search) (x : VarIndex) (u : Search) (consistent : Bool) : Search → Prop
  | intro {e : Engine} :
      Settles (refutation x (s.engine.store.set x).lower u.engine.objective u.best)
        (u.engine.withStore (u.engine.store.backtrack s.engine.store.depth)) consistent e →
      Refutes s x u consistent (u.withEngine e)

/-- The search after a dead end. -/
def failed (s : Search) : Search :=
  { s with statistics := { s.statistics with failures := s.statistics.failures + 1 } }

/-- The terminating runs of the search below a state. -/
inductive Explores : Bool → Search → Ending → Search → Prop
  | dead {s : Search} : Explores false s .exhausted s.failed
  | leaf {s t : Search} {ending : Ending} : s.engine.store.narrowestUnfixed = none →
      accept s = .ok ending t → Explores true s ending t
  | left {s t u : Search} {x : VarIndex} {consistent : Bool} :
      s.engine.store.narrowestUnfixed = some x → Decides s x consistent t →
      Explores consistent t .satisfied u → Explores true s .satisfied u
  | both {s t u w z : Search} {x : VarIndex} {consistent consistent' : Bool} {ending : Ending} :
      s.engine.store.narrowestUnfixed = some x → Decides s x consistent t →
      Explores consistent t .exhausted u → Refutes s x u consistent' w →
      Explores consistent' w ending z → Explores true s ending z

/-- Below the checkpoints of the first state nothing has changed. -/
structure Restorable (s t : Search) : Prop where
  posted_eq : t.engine.posted = s.engine.posted
  drained : t.engine.Drained
  depth_le : s.engine.store.depth ≤ t.engine.store.depth
  backtrack_eq : ∀ k < s.engine.store.depth,
    t.engine.store.backtrack k = s.engine.store.backtrack k

/-- Going back to the depth of the first state gives back its store as well. -/
structure Returns (s t : Search) : Prop extends Restorable s t where
  depth_lt : s.engine.store.depth < t.engine.store.depth
  returns : t.engine.store.backtrack s.engine.store.depth =
    { s.engine.store with modified := #[] }

theorem Restorable.trans (h : Restorable s t) (h' : Restorable t u) : Restorable s u where
  posted_eq := h'.posted_eq.trans h.posted_eq
  drained := h'.drained
  depth_le := h.depth_le.trans h'.depth_le
  backtrack_eq := fun k hk =>
    (h'.backtrack_eq k (hk.trans_le h.depth_le)).trans (h.backtrack_eq k hk)

theorem Returns.trans (h : Returns s t) (h' : Restorable t u) : Returns s u where
  toRestorable := h.toRestorable.trans h'
  depth_lt := h.depth_lt.trans_le h'.depth_le
  returns := (h'.backtrack_eq _ h.depth_lt).trans h.returns

/-- A part of the search that leaves the store and all propagators alone. -/
theorem restorable_of_eq (hdrained : t.engine.Drained) (hposted : t.engine.posted = s.engine.posted)
    (hstore : t.engine.store = s.engine.store) : Restorable s t :=
  ⟨hposted, hdrained, by rw [hstore], fun _ _ => by rw [hstore]⟩

section

variable (hg : Grounded s.engine) (hdrained : s.engine.Drained)
  (hsome : s.engine.store.narrowestUnfixed = some x)
include hg hdrained hsome

/-- A decision opens a checkpoint, and going back to it gives back the store. -/
theorem Decides.returns (h : Decides s x consistent t) : Returns s t ∧ Grounded t.engine := by
  obtain ⟨hx, -⟩ := narrowestUnfixed_spec hsome
  obtain ⟨hsettles⟩ := h
  have ho : Grounded (opened s.engine x (s.engine.store.set x).lower) :=
    hg.of_posted hg.proper rfl rfl
  obtain ⟨hfol, hdrained'⟩ := hsettles.follows ho hdrained
    (loses_fix ho.proper (created_ofVar hx) (s.engine.store.set x).lower)
  have hdepth := hfol.yields.depth_eq
  have hback := fun k (hk : k ≤ s.engine.store.depth) =>
    (hfol.yields.backtrack_eq (Nat.lt_succ_of_le hk)).trans (Store.backtrack_openCheckpoint hk)
  refine ⟨⟨⟨hfol.posted_eq, hdrained', ?_, fun k hk => hback k hk.le⟩, ?_, ?_⟩, hfol.grounded ho⟩
  · exact (Nat.le_succ _).trans hdepth.ge
  · exact (Nat.lt_succ_self _).trans_le hdepth.ge
  · exact (hback _ le_rfl).trans Store.backtrack_depth

/-- What is left on the side of the decided value. -/
theorem Decides.narrowed (h : Decides s x true t) :
    t.engine.store ≤ s.engine.store ∧ t.engine.store.slack < s.engine.store.slack ∧
      ∀ a, t.engine.store.Admits a → a x = (s.engine.store.set x).lower := by
  obtain ⟨hx, hunfixed⟩ := narrowestUnfixed_spec hsome
  obtain ⟨hsettles⟩ := h
  have ho : Grounded (opened s.engine x (s.engine.store.set x).lower) :=
    hg.of_posted hg.proper rfl rfl
  have hfix := Store.restricts_fix ho.proper (View.exact_ofVar ho.proper hx).created
    (s.engine.store.set x).lower
  obtain ⟨hfol, hp⟩ := hsettles.admits (p := fun a => a x = (s.engine.store.set x).lower) ho hdrained
    fun t ht => by
      rw [ht] at hfix
      exact ⟨hfix.1, fun a ha => by simpa using ((hfix.2 a).mp ha).2⟩
  refine ⟨hfol.yields.le, ?_, hp⟩
  -- the upper bound of the decided variable is lost
  have hupper := Store.admits_update_least hg.proper (hg.proper x hx).upper_mem
  refine slack_lt_of_follows (e := opened s.engine x (s.engine.store.set x).lower) hfol hp hupper ?_
  simp only [ValueSet.isFixed, beq_eq_false_iff_ne] at hunfixed
  simpa using hunfixed.symm

end

section

variable (hg : Grounded s.engine) (hsu : Returns s u)
  (hsome : s.engine.store.narrowestUnfixed = some x)
include hg hsu

/-- The engine back at its node. -/
theorem Returns.grounded :
    Grounded (u.engine.withStore (u.engine.store.backtrack s.engine.store.depth)) := by
  rw [hsu.returns]
  exact hg.of_posted hg.proper rfl hsu.posted_eq

include hsome

/-- A refutation starts again from the store of the node. -/
theorem Refutes.restorable (h : Refutes s x u consistent w) :
    Restorable s w ∧ Grounded w.engine := by
  obtain ⟨hx, -⟩ := narrowestUnfixed_spec hsome
  obtain ⟨hsettles⟩ := h
  have hgo := hsu.grounded hg
  rw [hsu.returns] at hsettles hgo
  obtain ⟨hfol, hdrained⟩ := hsettles.follows hgo hsu.drained
    (loses_refutation hgo hx (s.engine.store.set x).lower u.best)
  have hyields := (s.engine.store.yields_clear #[]).trans hfol.yields
  exact ⟨⟨hfol.posted_eq.trans hsu.posted_eq, hdrained, hyields.depth_eq.ge,
    fun k hk => hyields.backtrack_eq hk⟩, hfol.grounded hgo⟩

/-- What is left on the side of the refuted value. -/
theorem Refutes.narrowed (h : Refutes s x u true w) :
    w.engine.store ≤ s.engine.store ∧ w.engine.store.slack < s.engine.store.slack ∧
      ∀ a, w.engine.store.Admits a → a x ≠ (s.engine.store.set x).lower := by
  obtain ⟨hx, -⟩ := narrowestUnfixed_spec hsome
  obtain ⟨hsettles⟩ := h
  have hgo := hsu.grounded hg
  rw [hsu.returns] at hsettles hgo
  obtain ⟨hfol, hp⟩ := hsettles.admits hgo hsu.drained fun t ht => refutation_narrows hgo hx ht
  refine ⟨hfol.yields.le, ?_, hp⟩
  -- the refuted value is lost
  exact slack_lt_of_follows (e := u.engine.withStore { s.engine.store with modified := #[] }) hfol hp
    (Store.admits_least hg.proper) fun h => h rfl

end

theorem accept_ne_error (s : Search) (f : Failure) (t : Search) : accept s ≠ .error f t := by
  rw [accept_eq]
  cases s.engine.objective <;> exact nofun

theorem restorable_accept (hdrained : s.engine.Drained) (hrun : accept s = .ok ending t) :
    Restorable s t := by
  rw [accept_eq] at hrun
  cases hobj : s.engine.objective with
  | none =>
      rw [hobj] at hrun
      cases hrun
      exact restorable_of_eq hdrained rfl rfl
  | some _ =>
      rw [hobj] at hrun
      cases hrun
      exact restorable_of_eq hdrained rfl rfl

/-- The search leaves everything below its checkpoints as it was, however it ends. -/
theorem Explores.restorable (h : Explores consistent s ending t) (hg : Grounded s.engine)
    (hdrained : s.engine.Drained) : Restorable s t := by
  induction h with
  | dead => exact restorable_of_eq hdrained rfl rfl
  | leaf _ hrun => exact restorable_accept hdrained hrun
  | left hsome hdecides _ ih =>
      obtain ⟨hst, hgt⟩ := hdecides.returns hg hdrained hsome
      exact hst.toRestorable.trans (ih hgt hst.drained)
  | both hsome hdecides _ hrefutes _ ih ih' =>
      obtain ⟨hst, hgt⟩ := hdecides.returns hg hdrained hsome
      have hsu := hst.trans (ih hgt hst.drained)
      obtain ⟨hsw, hgw⟩ := hrefutes.restorable hg hsu hsome
      exact hsw.trans (ih' hgw hsw.drained)

/-! ## The bound of the search -/

theorem decides_branch (hg : Grounded s.engine) (hdrained : s.engine.Drained)
    (hsome : s.engine.store.narrowestUnfixed = some x) :
    match branch x (s.engine.store.set x).lower s with
    | .ok consistent t => Decides s x consistent t
    | .error f _ => f = .overflow ∧ ¬ Bounded s.engine := by
  obtain ⟨hx, -⟩ := narrowestUnfixed_spec hsome
  have ho : Grounded (opened s.engine x (s.engine.store.set x).lower) :=
    hg.of_posted hg.proper rfl rfl
  rw [branch_eq]
  match Running.succeeds (Running.decide x (s.engine.store.set x).lower)
      (opened s.engine x (s.engine.store.set x).lower),
    settles_onStore ho hdrained (loses_fix ho.proper (created_ofVar hx) _) with
  | .ok _ e, hsettles => exact .intro hsettles
  | .error f e, hfail => exact hfail

theorem refutes_retract (hg : Grounded s.engine) (hsu : Returns s u)
    (hsome : s.engine.store.narrowestUnfixed = some x) :
    match retract s.engine.store.depth x (s.engine.store.set x).lower u with
    | .ok consistent w => Refutes s x u consistent w
    | .error f _ => f = .overflow ∧ ¬ Bounded s.engine := by
  obtain ⟨hx, -⟩ := narrowestUnfixed_spec hsome
  have hgo := hsu.grounded hg
  have hx' : x < (u.engine.store.backtrack s.engine.store.depth).numVariables := by
    rw [hsu.returns]
    exact hx
  have hsettles := settles_onStore hgo hsu.drained
    (loses_refutation hgo hx' (s.engine.store.set x).lower u.best)
  rw [retract_eq, succeeds_refute]
  match Running.succeeds _ (u.engine.withStore (u.engine.store.backtrack s.engine.store.depth)),
    hsettles with
  | .ok _ e, hsettles => exact .intro hsettles
  | .error f e, ⟨hf, hlong⟩ =>
    exact ⟨hf, fun hbounded => hlong ((bounded_iff_of_posted hsu.posted_eq).mpr hbounded)⟩

/-- With more steps than the slack of its store, the search below a state is a terminating run. -/
theorem explores_explore (fuel : Nat) (hg : Grounded s.engine) (hdrained : s.engine.Drained)
    (hpos : 0 < fuel) (hfuel : consistent = true → s.engine.store.slack < fuel) :
    match explore fuel consistent s with
    | .ok ending t => Explores consistent s ending t
    | .error f _ => f = .overflow ∧ ¬ Bounded s.engine := by
  induction fuel generalizing s consistent with
  | zero => exact absurd hpos (Nat.lt_irrefl 0)
  | succ fuel ih =>
      cases consistent with
      | false => exact .dead
      | true =>
          have hslack := hfuel rfl
          rw [explore_succ]
          cases hsome : s.engine.store.narrowestUnfixed with
          | none =>
              simp only
              match haccept : accept s with
              | .ok ending t => exact .leaf hsome haccept
              | .error f t => exact absurd haccept (accept_ne_error s f t)
          | some x =>
              -- an unfixed variable leaves a step for each branch, even for a dead end
              have hpos' : 0 < fuel := by
                have := slack_pos_of_unfixed hg.proper hsome
                omega
              simp only
              match branch x (s.engine.store.set x).lower s, decides_branch hg hdrained hsome with
              | .error f t, hfail => exact hfail
              | .ok c t, hdecides =>
                obtain ⟨hst, hgt⟩ := hdecides.returns hg hdrained hsome
                have hlong : ¬ Bounded t.engine → ¬ Bounded s.engine :=
                  mt (bounded_iff_of_posted hst.posted_eq).mpr
                simp only
                match explore fuel c t, ih hgt hst.drained hpos' fun hc => by
                    subst hc
                    have := (hdecides.narrowed hg hdrained hsome).2.1
                    omega with
                | .error f u, hfail => exact ⟨hfail.1, hlong hfail.2⟩
                | .ok .satisfied u, hleft => exact .left hsome hdecides hleft
                | .ok .exhausted u, hleft =>
                  have hsu := hst.trans (hleft.restorable hgt hst.drained)
                  simp only
                  match retract s.engine.store.depth x (s.engine.store.set x).lower u,
                    refutes_retract hg hsu hsome with
                  | .error f w, hfail => exact hfail
                  | .ok c' w, hrefutes =>
                    obtain ⟨hsw, hgw⟩ := hrefutes.restorable hg hsu hsome
                    have hlong' : ¬ Bounded w.engine → ¬ Bounded s.engine :=
                      mt (bounded_iff_of_posted hsw.posted_eq).mpr
                    simp only
                    match explore fuel c' w, ih hgw hsw.drained hpos' fun hc => by
                        subst hc
                        have := (hrefutes.narrowed hg hsu hsome).2.1
                        omega with
                    | .error f z, hfail => exact ⟨hfail.1, hlong' hfail.2⟩
                    | .ok ending z, hright => exact .both hsome hdecides hleft hrefutes hright

end Search

/-! ## Solving -/

/-- The terminating runs of a search from the root: all propagators run, then the tree is searched,
and the search goes back to the root. -/
inductive Searches (e : Engine) : Statistics → Engine → Prop
  | intro {consistent : Bool} {e₁ : Engine} {ending : Ending} {t : Search} :
      Propagates (started e) consistent e₁ →
      Search.Explores consistent { engine := e₁ } ending t →
      Searches e { t.statistics with complete := ending = .exhausted }
        (t.engine.withStore (t.engine.store.backtrack e.store.depth))

theorem started_store (e : Engine) : (started e).store = e.store.openCheckpoint := by
  rw [started_eq]
  rfl

theorem grounded_started (h : Grounded e) : Grounded (started e) :=
  h.of_posted (by rw [started_store]; exact h.proper) (by rw [started_store]; rfl) (started_posted e)

/-- A search from the root ends, unless the terms of a linear equality are too large. -/
theorem searches_search (h : Resting e) :
    match Running.search e with
    | .ok outcome e' => Searches e outcome e'
    | .error f _ => f = .overflow ∧ ¬ Bounded e := by
  have hg := grounded_started h.toGrounded
  have hwait := waiting_started h.drained
  have hlong : ∀ {e'}, e'.posted = e.posted → ¬ Bounded e' → ¬ Bounded e := fun hposted =>
    mt (bounded_iff_of_posted hposted).mpr
  rw [search_eq]
  match Running.succeeds Running.propagate (started e), propagates_propagate hg hwait with
  | .error f e', ⟨hf, hstarted⟩ => exact ⟨hf, hlong (started_posted e) hstarted⟩
  | .ok consistent e', hprop =>
    have hrest := hprop.rests hg hwait
    have hslack : e'.store.slack < (started e).store.potential :=
      hrest.yields.slack_le.trans_lt (Store.slack_lt_potential _)
    have hexplore := @Search.explores_explore consistent { engine := e' } (started e).store.potential
      (hrest.grounded hg) hrest.drained (Nat.zero_lt_of_lt hslack) fun _ => hslack
    simp only
    match Search.explore (started e).store.potential consistent { engine := e' }, hexplore with
    | .error f s, ⟨hf, hs⟩ => exact ⟨hf, hlong (hrest.posted_eq.trans (started_posted e)) hs⟩
    | .ok ending s, hexplores => exact .intro hprop hexplores

/-- Going back to the root restores the engine. -/
theorem Searches.restored {outcome : Statistics} (h : Searches e outcome e') (hrest : Resting e) :
    e'.store = e.store ∧ e'.posted = e.posted ∧ e'.Drained := by
  obtain ⟨hprop, hexplores⟩ := h
  have hg := grounded_started hrest.toGrounded
  have hrests := hprop.rests hg (waiting_started hrest.drained)
  have hst := hexplores.restorable (hrests.grounded hg) hrests.drained
  have hyields := hrests.yields
  rw [started_store] at hyields
  have hopen : e.store.depth < e.store.openCheckpoint.depth := by simp
  refine ⟨?_, hst.posted_eq.trans (hrests.posted_eq.trans (started_posted e)), hst.drained⟩
  calc _ = _ := hst.backtrack_eq _ (hopen.trans_eq hyields.depth_eq.symm)
    _ = e.store.openCheckpoint.backtrack e.store.depth := hyields.backtrack_eq hopen
    _ = e.store := by
        rw [Store.backtrack_openCheckpoint le_rfl, Store.backtrack_depth, ← hrest.modified_eq]

theorem Resting.forgetful (h : Resting e) : Resting e.forgetful :=
  ⟨h.of_posted h.proper rfl rfl, h.drained, h.modified_eq⟩

/-- The outcome of solving an engine at rest: all but the solution and the journal is restored. -/
def Restored (e : Engine) : EStateM.Result Failure Engine Statistics → Prop
  | .ok _ e' => e'.store = e.store ∧ e'.posted = e.posted ∧ e'.Drained
  | .error f _ => f = .overflow ∧ ¬ Bounded e

/-- Solving restores an engine at rest, and no short linear equality makes it overflow. -/
theorem restored_solve (h : Resting e) : Restored e (Running.solve e) := by
  rw [solve_eq]
  split
  · exact ⟨rfl, rfl, h.drained⟩
  · match Running.search e.forgetful, searches_search h.forgetful with
    | .ok outcome e', hsearches => exact hsearches.restored h.forgetful
    | .error f e', hfail => exact hfail

end FiniteDomain.Engine
