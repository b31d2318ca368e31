import FiniteDomain.Engine.Search
import FiniteDomain.Proofs.Engine.Fixpoint

/-!
# Deciding and refuting

The search narrows one variable at a time and propagates. Deciding a value and refuting it
share the solutions of the node between them: what has the value stays on one side, what has
another value and is better than the best solution so far on the other. Both sides have less
slack than the node.
-/

namespace FiniteDomain

namespace Direction

variable {direction : Direction} {old new x : Int}

/-- One objective value is better than another. -/
def Better (direction : Direction) (new old : Int) : Prop :=
  match direction with
  | .minimise => new < old
  | .maximise => old < new

/-- One objective value lies within the bound that demands better ones than another. -/
def Improves (direction : Direction) (new old : Int) : Prop :=
  match direction with
  | .minimise => new ≤ word64.clamp (old - 1)
  | .maximise => word64.clamp (old + 1) ≤ new

/-- The value which nothing can be better than. -/
def extreme : Direction → Int
  | .minimise => word64.min
  | .maximise => word64.max

/-- What violates the bound is not better. -/
theorem not_better_of_not_improves (hx : word64.Fits x) (h : ¬ direction.Improves x old) :
    ¬ direction.Better x old := by
  obtain ⟨hmin, hmax⟩ := hx
  cases direction with
  | minimise =>
      have := word64.clamp_cases (old - 1)
      simp only [Improves, Better] at h ⊢
      omega
  | maximise =>
      have := word64.clamp_cases (old + 1)
      simp only [Improves, Better] at h ⊢
      omega

/-- What lies within the bound is better, unless nothing can be. -/
theorem better_of_improves (hold : word64.Fits old) (hne : old ≠ direction.extreme)
    (h : direction.Improves new old) : direction.Better new old := by
  obtain ⟨hmin, hmax⟩ := hold
  cases direction with
  | minimise =>
      have := word64.clamp_cases (old - 1)
      simp only [Improves, Better, extreme] at h hne ⊢
      omega
  | maximise =>
      have := word64.clamp_cases (old + 1)
      simp only [Improves, Better, extreme] at h hne ⊢
      omega

/-- What is not better than a value is not better than a value within its bound. -/
theorem not_better_trans (hold : word64.Fits old) (h : direction.Improves new old)
    (hx : ¬ direction.Better x old) : ¬ direction.Better x new := by
  obtain ⟨hmin, hmax⟩ := hold
  cases direction with
  | minimise =>
      have := word64.clamp_cases (old - 1)
      simp only [Improves, Better] at h hx ⊢
      omega
  | maximise =>
      have := word64.clamp_cases (old + 1)
      simp only [Improves, Better] at h hx ⊢
      omega

end Direction

namespace Engine

variable {e e' : Engine} {s : Store} {a : Valuation} {x : VarIndex} {value : Int}
  {objective : Option (Direction × View)} {best : Option Int}

/-- The objective value lies within the bound that the best one so far demands. -/
def Within (objective : Option (Direction × View)) (best : Option Int) (a : Valuation) : Prop :=
  ∀ direction v old, objective = some (direction, v) → best = some old →
    direction.Improves (v.eval a) old

/-- The objective value is not better than the best one so far. -/
def Beaten (objective : Option (Direction × View)) (best : Option Int) (a : Valuation) : Prop :=
  ∃ direction v old, objective = some (direction, v) ∧ best = some old ∧
    ¬ direction.Better (v.eval a) old

theorem beaten_of_not_within (hexact : ∀ direction v, objective = some (direction, v) → v.Exact s)
    (ha : s.Admits a) (h : ¬ Within objective best a) : Beaten objective best a := by
  simp only [Within, not_forall] at h
  obtain ⟨direction, v, old, hobj, hbest, himp⟩ := h
  exact ⟨direction, v, old, hobj, hbest,
    Direction.not_better_of_not_improves ((hexact direction v hobj).fits_eval ha) himp⟩

/-- A consistent state of the search: propagation has run to the end. -/
structure Node (e : Engine) : Prop where
  legible : e.Legible
  drained : e.Drained
  modified_eq : e.store.modified = #[]
  pending : Pending e

theorem Node.settled (h : Node e) {p : Propagator} (hp : p ∈ e.propagators) : Settled e.store p :=
  settled_of_pending h.pending h.drained h.modified_eq hp

theorem Node.of_sets (h : Node e) (hsets : e'.store.sets = e.store.sets)
    (hposted : e'.posted = e.posted) (hdrained : e'.Drained) (hmodified : e'.store.modified = #[]) :
    Node e' where
  legible := h.legible.of_sets hsets hposted
  drained := hdrained
  modified_eq := hmodified
  pending := fun i p hi => by
    rw [propagators_eq_of_posted hposted] at hi
    exact .inr (.inr ((h.settled (Array.mem_of_getElem? hi)).of_sets hsets))

/-- The outcome of narrowing a node to the valuations with a property, and propagating. -/
def Branched (e : Engine) (p : Valuation → Prop) : EStateM.Result Failure Engine Bool → Prop
  | .ok true e' => Node e' ∧ Follows e e' ∧ (∀ a, e'.store.Admits a → p a) ∧
      ∀ a, Needs e a → p a → e'.store.Admits a
  | .ok false e' => Follows e e' ∧ e'.Drained ∧ ∀ a, Needs e a → ¬ p a
  | .error .conflict _ => False
  | .error .overflow _ => ¬ ∀ q ∈ e.propagators, q.Small e.store

/-- A branch that excludes a valuation of the node has less slack. -/
theorem slack_lt_of_follows {p : Valuation → Prop} (hf : Follows e e')
    (hp : ∀ a, e'.store.Admits a → p a) (ha : e.store.Admits a) (hnot : ¬ p a) :
    e'.store.slack < e.store.slack := by
  obtain ⟨changed, hst⟩ := hf.yields
  rcases hst.eq_or_slack_lt with heq | hlt
  · refine absurd (hp a ?_) hnot
    have hadmits : Store.Admits { e'.store with modified := changed } a := heq ▸ ha
    exact hadmits
  · exact hlt

/-- The engine with another store. -/
def withStore (e : Engine) (s : Store) : Engine := { e with store := s }

theorem follows_withStore {s : Store} (h : e.store.Yields s) : Follows e (e.withStore s) :=
  ⟨h, rfl, rfl, rfl⟩

theorem succeeds_onStore_propagate (action : Narrowing Unit) (e : Engine) :
    Running.succeeds (do Running.onStore action; Running.propagate) e =
      match action e.store with
      | .ok _ s => Running.succeeds Running.propagate (e.withStore s)
      | .error .conflict s => .ok false (e.withStore s)
      | .error .overflow s => .error .overflow (e.withStore s) := by
  simp only [Running.succeeds, bind, EStateM.bind, Running.onStore]
  cases action e.store with
  | ok _ s => rfl
  | error f s => cases f <;> rfl

/-- Propagating below a node from a store that was narrowed to a property. -/
theorem branched_of_propagated {p : Valuation → Prop} {s : Store} (hn : Node e)
    (hst : e.store.Narrows s) (hp : ∀ a, s.Admits a ↔ e.store.Admits a ∧ p a) :
    Branched e p (Running.succeeds Running.propagate (e.withStore s)) := by
  have hf := e.follows_withStore hst.yields
  have hw := hf.legible hn.legible
  have hneeds : ∀ a, Needs e a → p a → Needs (e.withStore s) a := fun a ha hpa =>
    hf.needs hn.legible ha ((hp a).mpr ⟨ha.1, hpa⟩)
  have hprop := propagated_propagate hw (hn.drained.waiting : (e.withStore s).Waiting)
  simp only [Running.succeeds]
  match Running.propagate (e.withStore s), hprop with
  | .ok _ e', ⟨hadv, hdrained, hmodified⟩ =>
    refine ⟨⟨hadv.legible hw, hdrained, hmodified, hadv.pending (hn.pending.narrows hst)⟩,
      hf.trans hadv.toFollows, fun a ha => ?_, fun a ha hpa => hadv.spares a (hneeds a ha hpa)⟩
    exact ((hp a).mp (hadv.yields.admits ha)).2
  | .error .conflict e', ⟨hfol, hdrained, _, hnone⟩ =>
    exact ⟨hf.trans hfol, hdrained, fun a ha hpa => hnone a (hneeds a ha hpa)⟩
  | .error .overflow e', hlarge =>
    exact fun hsmall => hlarge (hf.small hn.legible hsmall)

theorem branched_of_restricts {p : Valuation → Prop} {action : Narrowing Unit} (hn : Node e)
    (h : e.store.Restricts p (action e.store)) :
    Branched e p (Running.succeeds (do Running.onStore action; Running.propagate) e) := by
  rw [succeeds_onStore_propagate]
  match action e.store, h with
  | .ok _ s, ⟨hst, hp⟩ => exact branched_of_propagated hn hst hp
  | .error .conflict s, ⟨hst, hnone⟩ =>
    exact ⟨e.follows_withStore hst.yields, hn.drained, fun a ha => hnone a ha.1⟩

/-- Deciding keeps the valuations with the decided value. -/
theorem branched_decide (hn : Node e) (hx : x < e.store.numVariables) (value : Int) :
    Branched e (fun a => a x = value) (Running.succeeds (Running.decide x value) e) := by
  have h := Store.restricts_fix hn.legible.proper
    (View.exact_ofVar hn.legible.proper hx).created value
  simp only [View.eval_ofVar] at h
  exact branched_of_restricts hn h

/-- The bound on the objective that the best value so far demands. -/
def demand (objective : Option (Direction × View)) (best : Option Int) : Narrowing Unit :=
  match objective, best with
  | some (.minimise, v), some old => v.atMost (word64.clamp (old - 1))
  | some (.maximise, v), some old => v.atLeast (word64.clamp (old + 1))
  | _, _ => pure ()

theorem restricts_demand (hs : s.Proper)
    (hexact : ∀ direction v, objective = some (direction, v) → v.Exact s) :
    s.Restricts (Within objective best) (demand objective best s) := by
  match objective, best, hexact with
  | none, best, _ => exact ⟨.refl, fun a => by simp [Within]⟩
  | some (.minimise, v), none, _ => exact ⟨.refl, fun a => by simp [Within]⟩
  | some (.maximise, v), none, _ => exact ⟨.refl, fun a => by simp [Within]⟩
  | some (.minimise, v), some old, hexact =>
    refine (Store.restricts_atMost hs (hexact _ v rfl).created _).congr fun a _ => ?_
    simp [Within, Direction.Improves]
  | some (.maximise, v), some old, hexact =>
    refine (Store.restricts_atLeast hs (hexact _ v rfl).created _).congr fun a _ => ?_
    simp [Within, Direction.Improves]

theorem improve_eq (best : Int) (e : Engine) :
    Running.improve best e = Running.onStore (demand e.objective (some best)) e := by
  simp only [Running.improve, bind, EStateM.bind, get_apply]
  match e.objective with
  | none => rfl
  | some (.minimise, v) => rfl
  | some (.maximise, v) => rfl

theorem onStore_seq (first second : Narrowing Unit) (e : Engine) :
    Running.onStore (do first; second) e =
      match Running.onStore first e with
      | .ok _ e => Running.onStore second e
      | .error f e => .error f e := by
  simp only [Running.onStore, bind, EStateM.bind]
  cases first e.store <;> rfl

/-- A refutation removes the value, demands a better objective, and propagates. -/
theorem refute_eq (x : VarIndex) (value : Int) (best : Option Int) (e : Engine) :
    Running.refute x value best e =
      (do Running.onStore (do (View.ofVar x).remove value; demand e.objective best)
          Running.propagate : Running Unit) e := by
  have hobjective : ∀ e' : Engine, Running.onStore ((View.ofVar x).remove value) e = .ok () e' →
      e'.objective = e.objective := by
    intro e' h
    simp only [Running.onStore] at h
    split at h
    · exact (EStateM.Result.ok.inj h).2 ▸ rfl
    · cases h
  have hseq := onStore_seq ((View.ofVar x).remove value) (demand e.objective best) e
  simp only [Running.refute, bind, EStateM.bind] at hseq ⊢
  rw [hseq]
  have hskip : ∀ e', Running.onStore (demand e.objective none) e' = .ok () e' := by
    intro e'
    rcases e.objective with _ | ⟨_ | _, v⟩ <;> rfl
  cases hr : Running.onStore ((View.ofVar x).remove value) e with
  | error f e' => rfl
  | ok _ e' =>
      cases best with
      | none => simp only [hskip]
      | some best => simp only [EStateM.bind, improve_eq, hobjective e' hr]

/-- Refuting keeps the valuations with another value and a better objective. -/
theorem branched_refute (hn : Node e) (hx : x < e.store.numVariables) (value : Int)
    (best : Option Int) :
    Branched e (fun a => a x ≠ value ∧ Within e.objective best a)
      (Running.succeeds (Running.refute x value best) e) := by
  have hs := hn.legible.proper
  have hremove := Store.restricts_remove hs (View.exact_ofVar hs hx).created value
  simp only [View.eval_ofVar] at hremove
  have hdemand : ∀ t, e.store.Narrows t →
      t.Restricts (Within e.objective best) (demand e.objective best t) := fun t ht =>
    restricts_demand (ht.proper hs) fun direction v hobj =>
      (hn.legible.objective direction v hobj).mono ht.le
  have hbranched := branched_of_restricts hn (hremove.seq hdemand)
  simpa only [Running.succeeds, refute_eq] using hbranched

end Engine

end FiniteDomain
