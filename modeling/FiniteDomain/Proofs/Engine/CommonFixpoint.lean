import FiniteDomain.Proofs.Engine.Balance
import FiniteDomain.Proofs.Engine.Traces

/-!
# Fixpoints throughout a history

The loop of propagation is started by a post, at the root of a search, and by every decision and
refutation below it. Each start is prepared by a fixpoint, or has all propagators waiting: a post
adds a propagator that is waiting to those that do nothing, a decision or a refutation loses values
of a fixpoint, and going back to a node gives its store back. So each of these loops ends in a
fixpoint in turn, unless it finds that there is no solution. Every loop runs the propagators that
were posted so far, in the order in which they were posted.
-/

namespace FiniteDomain.Engine

open Narrowing

variable {e e' e₁ : Engine} {declared : Store} {p : Propagator} {r : Request} {calls : List Call}
  {action : Narrowing Unit} {consistent : Bool}

/-! ## The start of a loop -/

/-- Posting at a fixpoint adds a waiting propagator to those that do nothing. -/
theorem Balanced.ready_enlisted (h : Balanced e) (hp : p.Exact e.store) (hsmall : p.Small e.store) :
    Ready (e.enlisted p) where
  toWellFormed := wellFormed_enlisted h.toWellFormed hp
  small := fun q hq => (mem_enlisted.mp hq).elim (h.small q) fun hq => hq ▸ hsmall
  waiting := waiting_enlisted h.toCleared.drained
  poised := fun i q hi => by
    rw [show (e.enlisted p).propagators = e.propagators.push p from rfl, Array.getElem?_push] at hi
    split at hi
    · next hlast =>
      exact .inl (hlast ▸ h.toCleared.drained.enlisted.2)
    · exact .inr (.inr (h.inert q (Array.mem_of_getElem? hi)))

/-- At the start of a search all propagators are waiting. -/
theorem Tame.ready_started (h : Tame e) (hdrained : e.Drained) : Ready (started e) where
  toTame := h.of_sets (by rw [started_store]; rfl) (started_posted e)
  waiting := waiting_started hdrained
  poised := fun _ _ hi => .inl (mem_agenda_started hdrained hi)

namespace Search

variable {s t u : Search} {x : VarIndex}

/-- The branches of a node, each with the engine in which it begins, what it narrows, and the state
of the search: the decision, and after its subtree is exhausted the refutation. -/
inductive Branches (s : Search) : Engine → Narrowing Unit → Search → Prop
  | decide {x : VarIndex} : s.engine.store.narrowestUnfixed = some x →
      Branches s (opened s.engine x (s.engine.store.set x).lower)
        ((View.ofVar x).fix (s.engine.store.set x).lower) s.decided
  | refute {x : VarIndex} {consistent : Bool} {t u : Search} :
      s.engine.store.narrowestUnfixed = some x → Decides s x consistent t →
      Explores consistent t .exhausted u →
      Branches s (u.engine.withStore (u.engine.store.backtrack s.engine.store.depth))
        (refutation x (s.engine.store.set x).lower u.engine.objective u.best) u

/-- The nodes that the search comes by below a state, dead ends included. -/
inductive Visits (consistent : Bool) (s : Search) : Bool → Search → Prop
  | here : Visits consistent s consistent s
  | branch {t u : Search} {e e' : Engine} {action : Narrowing Unit} {consistent' : Bool} :
      Visits consistent s true t → Branches t e action u → Settles action e consistent' e' →
      Visits consistent s consistent' (u.withEngine e')

/-- A branch of a fixpoint begins at a fixpoint, and only loses values. -/
theorem Branches.balanced (h : Branches s e action u) (hb : Balanced s.engine) :
    Balanced e ∧ Loses e.store True action fun _ => True := by
  have hg := hb.toWellFormed.grounded
  cases h with
  | @decide x hsome =>
      obtain ⟨hx, -⟩ := narrowestUnfixed_spec hsome
      have hopened : Balanced (opened s.engine x (s.engine.store.set x).lower) :=
        hb.of_sets rfl rfl hb.toCleared.drained hb.modified_eq
      exact ⟨hopened, loses_fix hopened.proper (created_ofVar hx) _⟩
  | @refute x consistent t u hsome hdecides hexplores =>
      obtain ⟨hx, -⟩ := narrowestUnfixed_spec hsome
      obtain ⟨hst, hgt⟩ := hdecides.returns hg hb.toCleared.drained hsome
      have hsu := hst.trans (hexplores.restorable hgt hst.drained)
      have hback : Balanced
          (u.engine.withStore (u.engine.store.backtrack s.engine.store.depth)) := by
        rw [hsu.returns]
        exact hb.of_sets rfl hsu.posted_eq hsu.drained rfl
      refine ⟨hback, loses_refutation hback.toWellFormed.grounded ?_ _ u.best⟩
      rw [hsu.returns]
      exact hx

/-- A branch of a fixpoint has the propagators of its node. -/
theorem Branches.posted_eq (h : Branches s e action u) (hb : Balanced s.engine) :
    e.posted = s.engine.posted := by
  have hg := hb.toWellFormed.grounded
  have hdrained := hb.toCleared.drained
  cases h with
  | decide _ => rfl
  | refute hsome hdecides hexplores =>
      obtain ⟨hst, hgt⟩ := hdecides.returns hg hdrained hsome
      exact (hst.trans (hexplores.restorable hgt hst.drained)).posted_eq

/-- Below a fixpoint all consistent nodes are fixpoints. -/
theorem Visits.balanced {consistent' : Bool} (h : Visits consistent s consistent' t)
    (hs : consistent = true → Balanced s.engine) (ht : consistent' = true) :
    Balanced t.engine := by
  induction h with
  | here => exact hs ht
  | branch _ hbranches hsettles ih =>
      obtain ⟨hb, hloses⟩ := hbranches.balanced (ih rfl)
      subst ht
      exact hb.settles hloses hsettles

/-- Below a fixpoint all nodes have the propagators of the root. -/
theorem Visits.posted_eq {consistent' : Bool} (h : Visits consistent s consistent' t)
    (hs : consistent = true → Balanced s.engine) : t.engine.posted = s.engine.posted := by
  induction h with
  | here => rfl
  | branch hvisits hbranches hsettles ih =>
      have hnode := hvisits.balanced hs rfl
      obtain ⟨hb, hloses⟩ := hbranches.balanced hnode
      have hfol := (hsettles.follows hb.toWellFormed.grounded hb.toCleared.drained hloses).1
      exact hfol.posted_eq.trans ((hbranches.posted_eq hnode).trans ih)

end Search

/-- A consistent node of the search that solving an engine makes. -/
def IsNode (e : Engine) (s : Search) : Prop :=
  e.infeasible = false ∧ ∃ consistent e₁, Propagates (started e.forgetful) consistent e₁ ∧
    Search.Visits consistent { engine := e₁ } true s

/-- The engines in which the loop of propagation starts during a call: with a propagator that is
posted, at the root of a search, and with what a branch of a node leaves. -/
inductive Starts (e : Engine) : Call → Engine → Prop
  | post {r : Request} {p : Propagator} : e.infeasible = false → p ∈ r.posts →
      Starts e (.request r) (e.enlisted p)
  | search : e.infeasible = false → Starts e .solve (started e.forgetful)
  | branch {s u : Search} {e₁ : Engine} {action : Narrowing Unit} {t : Store} : IsNode e s →
      s.Branches e₁ action u → action e₁.store = .ok () t → Starts e .solve (e₁.withStore t)

/-- Consistent nodes are fixpoints of the propagators of the engine. -/
theorem IsNode.balanced {s : Search} (h : IsNode e s) (htame : Tame e) (hdrained : e.Drained) :
    Balanced s.engine ∧ s.engine.posted = e.posted := by
  obtain ⟨-, consistent, e₁, hprop, hvisits⟩ := h
  have hready : Ready (started e.forgetful) :=
    Tame.ready_started (htame.of_sets rfl rfl) hdrained
  have hroot : consistent = true → Balanced e₁ := fun hc => hready.balanced (hc ▸ hprop)
  have hrests := hprop.rests hready.toWellFormed.grounded hready.waiting
  refine ⟨hvisits.balanced hroot rfl, ?_⟩
  calc s.engine.posted
      = e₁.posted := hvisits.posted_eq hroot
    _ = (started e.forgetful).posted := hrests.posted_eq
    _ = e.posted := started_posted e.forgetful

/-! ## Histories -/

/-- What a request of the history asks for is sound; a search always is. -/
def Call.Sound (declared : Store) : Call → Prop
  | request r => r.Sound declared
  | solve => True

/-- Every call is sound with the variables created before it. -/
def Sound : Store → List Call → Prop
  | _, [] => True
  | declared, c :: cs => c.Sound declared ∧ Sound (c.declare declared) cs

/-- The propagators that are posted by a call. -/
def Call.posts : Call → List Propagator
  | request r => r.posts
  | solve => []

/-- A request that posts a propagator, and nothing else, ends with the loop of that post. -/
theorem Request.perform_of_mem_posts (hp : p ∈ r.posts) (hfeasible : e.infeasible = false) :
    r.posts = [p] ∧ r.perform e = concluded p (Running.propagate (e.enlisted p)) := by
  rw [posts_eq] at hp ⊢
  rw [perform_eq]
  cases heffect : r.effect with
  | post q =>
      rw [heffect] at hp
      obtain rfl := List.mem_singleton.mp hp
      refine ⟨rfl, (post_eq e p).trans ?_⟩
      rw [hfeasible, if_neg Bool.false_ne_true]
  | _ =>
      rw [heffect] at hp
      cases hp

/-- An engine after sound calls: it tracks what was asked for, and unless it has been found
infeasible it has installed all that was posted, in this order, and is at a fixpoint. -/
structure Steady (e : Engine) (declared : Store) (posted : List Propagator) : Prop where
  tracks : Tracks e declared posted
  small : ∀ p ∈ posted, p.Small declared
  installed : e.infeasible = false → e.propagators.toList = posted
  fixpoint : e.infeasible = false → Fixpoint e

namespace Steady

variable {posted : List Propagator}

theorem fresh : Steady {} {} [] where
  tracks := .fresh
  small := by simp
  installed := fun _ => rfl
  fixpoint := fun _ => ⟨Drained.cleared rfl rfl, by simp⟩

theorem tame (h : Steady e declared posted) : Tame e :=
  ⟨h.tracks.idle.wellFormed, h.tracks.recalls.small h.small⟩

theorem drained (h : Steady e declared posted) : e.Drained := h.tracks.idle.drained

theorem cleared (h : Steady e declared posted) : Cleared e :=
  h.drained.cleared h.tracks.idle.modified_eq

theorem balanced (h : Steady e declared posted) (hfeasible : e.infeasible = false) : Balanced e :=
  ⟨h.tame, h.fixpoint hfeasible⟩

/-- What is sound on the declared variables is so in the store of the engine. -/
theorem ready_enlisted (h : Steady e declared posted) (hfeasible : e.infeasible = false)
    (hexact : p.Exact declared) (hsmall : p.Small declared) : Ready (e.enlisted p) :=
  (h.balanced hfeasible).ready_enlisted (hexact.mono h.tracks.le)
    (hsmall.mono h.tracks.proper h.tame.proper hexact h.tracks.le)

/-- A fixpoint stays one when a variable is created, as no propagator reads it. -/
theorem fixpoint_addVariable {d : ValueSet} (h : Steady e declared posted)
    (hfeasible : e.infeasible = false) (hd : d.Proper) (name : String) :
    Fixpoint (e.addVariable d name).2 where
  toCleared := Drained.cleared h.drained h.cleared.modified_eq
  inert := fun p hp =>
    ((h.fixpoint hfeasible).inert p hp).extend h.tame.proper (h.tame.toWellFormed.created hp)
      (e.store.extends_addVariable d) (Store.proper_addVariable h.tame.proper hd)

/-- A successful post installs its propagator, and ends in a fixpoint. -/
theorem fixpoint_post (h : Steady e declared posted) (hexact : p.Exact declared)
    (hsmall : p.Small declared) (hrun : Running.post p e = .ok () e')
    (hfeasible : e'.infeasible = false) :
    e'.propagators.toList = posted ++ [p] ∧ Fixpoint e' := by
  rw [post_eq] at hrun
  by_cases hinf : e.infeasible = true
  · rw [if_pos hinf] at hrun
    cases hrun
    exact absurd (hinf.symm.trans hfeasible) (by simp)
  rw [if_neg hinf] at hrun
  have hinf : e.infeasible = false := Bool.not_eq_true _ ▸ hinf
  have hready := h.ready_enlisted hinf hexact hsmall
  match Running.propagate (e.enlisted p), hready.concludes, hrun with
  | .ok _ e₁, ⟨hposted, hfixpoint, _⟩, hrun =>
    cases hrun
    have hpropagators : e'.propagators = e.propagators.push p := propagators_eq_of_posted hposted
    refine ⟨?_, hfixpoint⟩
    rw [hpropagators, Array.toList_push, h.installed hinf]
  | .error .conflict e₁, _, hrun =>
    cases hrun
    exact absurd hfeasible (by simp [refuted])

/-- A sound request is performed and ends in a fixpoint, or the engine is infeasible. -/
theorem request (h : Steady e declared posted) (hr : r.Sound declared) :
    ∃ e', r.perform e = .ok () e' ∧ Steady e' (r.declare declared) (posted ++ r.posts) := by
  obtain ⟨e', hrun, htracks', hsmall', -⟩ := performed h.tracks h.small hr
  suffices hends : e'.infeasible = false →
      e'.propagators.toList = posted ++ r.posts ∧ Fixpoint e' from
    ⟨e', hrun, htracks', hsmall', fun hf => (hends hf).1, fun hf => (hends hf).2⟩
  intro hfeasible
  have hexact := hr.exact
  have hsmall := hr.small
  rw [Request.posts_eq] at hexact hsmall ⊢
  rw [Request.perform_eq] at hrun
  cases heffect : r.effect with
  | nothing =>
      rw [heffect] at hrun
      cases hrun
      exact ⟨by simp [Request.Effect.posts, h.installed hfeasible], h.fixpoint hfeasible⟩
  | create d name =>
      rw [heffect] at hrun
      cases hrun
      exact ⟨(h.installed hfeasible).trans (List.append_nil _).symm,
        h.fixpoint_addVariable hfeasible (Request.proper_of_effect hr.fits heffect) name⟩
  | post p =>
      rw [heffect] at hrun hexact hsmall
      have hp : p ∈ (Request.Effect.post p).posts := List.mem_singleton_self p
      exact h.fixpoint_post (hexact p hp) (hsmall p hp) hrun hfeasible
  | aim direction v =>
      rw [heffect] at hrun
      cases hrun
      have hcleared : Cleared (e.setObjective direction v) :=
        Drained.cleared h.drained h.cleared.modified_eq
      exact ⟨(h.installed hfeasible).trans (List.append_nil _).symm,
        hcleared, (h.fixpoint hfeasible).inert⟩

/-- Solving gives back the store, and unless the engine is infeasible it is a search. -/
theorem solve (h : Steady e declared posted) :
    ∃ outcome e', Running.solve e = .ok outcome e' ∧ Steady e' declared posted ∧
      (e.infeasible = false → Searches e.forgetful outcome e') := by
  match hrun : Running.solve e, h.tracks.solve with
  | .ok outcome e', ⟨found, hsolved, htracks'⟩ =>
    have hinfeasible : e'.infeasible = e.infeasible := congrArg (·.infeasible) hsolved.posted_eq
    have hpropagators := propagators_eq_of_posted hsolved.posted_eq
    refine ⟨outcome, e', rfl, ⟨htracks', h.small, fun hf => ?_, fun hf => ?_⟩, fun hfeasible => ?_⟩
    · rw [hpropagators, h.installed (hinfeasible ▸ hf)]
    · exact ((h.balanced (hinfeasible ▸ hf)).of_sets (congrArg Store.sets hsolved.store_eq)
        hsolved.posted_eq hsolved.drained htracks'.idle.modified_eq).toFixpoint
    · have hrest : Resting e :=
        ⟨h.tame.toWellFormed.grounded, h.drained, h.tracks.idle.modified_eq⟩
      have hsearches := searches_search hrest.forgetful
      rw [solve_eq, hfeasible, if_neg Bool.false_ne_true] at hrun
      rwa [hrun] at hsearches
  | .error f e', ⟨_, hlarge⟩ => exact absurd h.small hlarge

/-- Sound calls never fail. -/
theorem history (h : Steady e declared posted) (hcalls : Sound declared calls) :
    ∃ e', history calls e = .ok () e' ∧
      Steady e' (calls.foldl Call.declare declared) (posted ++ calls.flatMap Call.posts) := by
  induction calls generalizing e declared posted with
  | nil => exact ⟨e, rfl, by simpa using h⟩
  | cons c cs ih =>
      obtain ⟨hc, hcs⟩ := hcalls
      rw [history_cons, List.flatMap_cons, ← List.append_assoc]
      cases c with
      | request r =>
          obtain ⟨e₁, hrun, hsteady⟩ := h.request hc
          rw [request_perform, hrun]
          exact ih hsteady hcs
      | solve =>
          obtain ⟨outcome, e₁, hrun, hsteady, -⟩ := h.solve
          rw [solve_perform, hrun]
          rw [Call.posts, List.append_nil]
          exact ih hsteady hcs

/-- Every loop that a sound call starts is prepared, and runs what has been posted before together
with what the call posts. -/
theorem ready {c : Call} (h : Steady e declared posted) (hc : c.Sound declared)
    (hstart : Starts e c e₁) : Ready e₁ ∧ e₁.propagators.toList = posted ++ c.posts := by
  cases hstart with
  | @post r p hfeasible hp =>
      refine ⟨h.ready_enlisted hfeasible (hc.exact p hp) (hc.small p hp), ?_⟩
      have hposts : (Call.request r).posts = [p] := (Request.perform_of_mem_posts hp hfeasible).1
      rw [hposts, ← h.installed hfeasible]
      exact Array.toList_push
  | search hfeasible =>
      refine ⟨Tame.ready_started (h.tame.of_sets rfl rfl) h.drained, ?_⟩
      rw [propagators_eq_of_posted (started_posted e.forgetful), Call.posts, List.append_nil]
      exact h.installed hfeasible
  | branch hnode hbranches hrun =>
      obtain ⟨hbalanced, hposted⟩ := hnode.balanced h.tame h.drained
      obtain ⟨hb, hloses⟩ := hbranches.balanced hbalanced
      have hst := hloses _ .refl
      rw [hrun] at hst
      refine ⟨hb.ready hst.1, ?_⟩
      have hpropagators : _ = e.propagators :=
        propagators_eq_of_posted ((hbranches.posted_eq hbalanced).trans hposted)
      rw [Call.posts, List.append_nil, ← h.installed hnode.1, ← hpropagators]
      rfl

end Steady

/-- After any sound calls nothing is waiting or marked as waiting, and unless the engine has been
found infeasible it has installed exactly the posted propagators and is at a fixpoint of all of
them, as are the consistent nodes of the search by which it is solved. Whatever sound call comes
next, each loop of propagation that it starts runs all posted propagators, its own included, and
terminates. It ends in a fixpoint that admits all solutions of the store in which it started, or
with a conflict and nothing waiting or marked, and then that store had no solution. What a request
that posts a propagator does is what its loop comes to. -/
theorem propagation_reaches_fixpoint (hcalls : Sound {} calls) :
    ∃ e, history calls {} = .ok () e ∧ Cleared e ∧
      (e.infeasible = false →
        (e.propagators.toList = calls.flatMap Call.posts ∧ Fixpoint e) ∧
        (∃ outcome e', Running.solve e = .ok outcome e' ∧ Searches e.forgetful outcome e') ∧
        ∀ (r : Request), ∀ p ∈ r.posts,
          r.perform e = concluded p (Running.propagate (e.enlisted p))) ∧
      (∀ s, IsNode e s →
        s.engine.propagators.toList = calls.flatMap Call.posts ∧ Fixpoint s.engine) ∧
      ∀ c : Call, c.Sound (calls.foldl Call.declare {}) → ∀ e₁, Starts e c e₁ →
        e₁.propagators.toList = calls.flatMap Call.posts ++ c.posts ∧
        (∀ r, Loops e₁ r ↔ r = Running.propagate e₁) ∧ Concludes e₁ (Running.propagate e₁) := by
  obtain ⟨e, hrun, hsteady⟩ := Steady.fresh.history hcalls
  obtain ⟨outcome, e', hsolve, -, hsearches⟩ := hsteady.solve
  refine ⟨e, hrun, hsteady.cleared, fun hfeasible => ⟨?_, ?_, fun r p hp => ?_⟩,
    fun s hnode => ?_, fun c hc e₁ hstart => ?_⟩
  · exact ⟨hsteady.installed hfeasible, hsteady.fixpoint hfeasible⟩
  · exact ⟨outcome, e', hsolve, hsearches hfeasible⟩
  · exact (Request.perform_of_mem_posts hp hfeasible).2
  · obtain ⟨hbalanced, hposted⟩ := hnode.balanced hsteady.tame hsteady.drained
    rw [propagators_eq_of_posted hposted]
    exact ⟨hsteady.installed hnode.1, hbalanced.toFixpoint⟩
  · obtain ⟨hready, hinstalled⟩ := hsteady.ready hc hstart
    exact ⟨hinstalled, fun _ => hready.loops_iff, hready.concludes⟩

/-- A number up to 2 below another one. -/
def orderedPair : List Call :=
  [.request (.interval 0 2 "x"), .request (.interval 0 2 "y"),
    .request (.rule (.less (.ofVar 0) (.ofVar 1) false) none)]

/-- Once the order is posted, and again at the root of a search, nothing is left to propagate. -/
theorem propagation_reaches_fixpoint_orderedPair : ∃ e, history orderedPair {} = .ok () e ∧
    e.propagators.toList = [{ rule := .less (.ofVar 0) (.ofVar 1) false }] ∧
    Fixpoint e ∧ Concludes (started e.forgetful) (Running.propagate (started e.forgetful)) := by
  have hinterval : (ValueSet.interval 0 2).Proper :=
    ValueSet.proper_interval (by decide) (by decide) (by decide)
  have hsound : Sound {} orderedPair := by
    refine ⟨⟨⟨by decide, by decide⟩, by simp [Request.posts], by simp [Request.posts], nofun⟩,
      ⟨⟨by decide, by decide⟩, by simp [Request.posts], by simp [Request.posts], nofun⟩,
      ⟨trivial, fun p hp v hv => ?_, fun p hp => ?_, nofun⟩, trivial⟩
    · obtain rfl := List.mem_singleton.mp hp
      have hproper := Store.proper_addVariable
        (Store.proper_addVariable Tracks.fresh.proper hinterval) hinterval
      rcases List.mem_pair.mp hv with rfl | rfl
      · exact View.exact_ofVar hproper (by decide)
      · exact View.exact_ofVar hproper (by decide)
    · obtain rfl := List.mem_singleton.mp hp
      trivial
  obtain ⟨e₀, hrun₀, hfeasible⟩ :
      ∃ e, history orderedPair {} = .ok () e ∧ e.infeasible = false := ⟨_, rfl, rfl⟩
  obtain ⟨e, hrun, -, hfixpoint, -, hloops⟩ := propagation_reaches_fixpoint hsound
  obtain rfl : e₀ = e := by
    rw [hrun₀] at hrun
    cases hrun
    rfl
  exact ⟨e₀, hrun, (hfixpoint hfeasible).1.1, (hfixpoint hfeasible).1.2,
    (hloops .solve trivial _ (.search hfeasible)).2.2⟩

end FiniteDomain.Engine
