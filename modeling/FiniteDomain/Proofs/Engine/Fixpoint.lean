import FiniteDomain.Proofs.Engine.Footprint
import FiniteDomain.Proofs.Engine.Queue

/-!
# Propagation

Running the propagators spares every solution of the store, and a conflict is only found
where there is none. When it ends, nothing is waiting, and every propagator with fixed views
has checked its constraint. The last point needs an invariant: a propagator is waiting, or
one of its variables is noted as changed, or what it has to say about the current store is
settled.

Each run of a propagator takes it off the agenda or costs slack, which bounds the number of
runs.
-/

namespace FiniteDomain.Engine

/-- The part of the engine that propagation leaves alone. -/
def posted (e : Engine) : Engine :=
  { e with store := {}, toQueue := {}, solution := none, journal := #[] }

/-- The objective value that an event reports. -/
def Event.improvement? : Event → Option Int
  | .improved value _ => some value
  | _ => none

/-- The objective values of the solutions found so far, oldest first. -/
def improvements (e : Engine) : List Int := e.journal.toList.filterMap Event.improvement?

/-- The store is proper, all propagators read their views as they are, the view of the objective is
exact, and every variable knows the propagators that read it. -/
structure Legible (e : Engine) : Prop where
  proper : e.store.Proper
  readable : ∀ p ∈ e.propagators, p.Readable e.store
  objective : ∀ direction v, e.objective = some (direction, v) → v.Exact e.store
  watchers_size : e.watchers.size = e.store.numVariables
  watched : ∀ i p, e.propagators[i]? = some p → ∀ v ∈ p.views, ∀ x, v.var? = some x →
    i ∈ e.watchers.getD x []
  watchers_lt : ∀ x, ∀ i ∈ e.watchers.getD x [], i < e.propagators.size

/-- The store is proper, the views of all propagators and of the objective are exact in it, and
every variable knows the propagators that read it. -/
structure WellFormed (e : Engine) : Prop where
  proper : e.store.Proper
  exact : ∀ p ∈ e.propagators, p.Exact e.store
  objective : ∀ direction v, e.objective = some (direction, v) → v.Exact e.store
  watchers_size : e.watchers.size = e.store.numVariables
  watched : ∀ i p, e.propagators[i]? = some p → ∀ v ∈ p.views, ∀ x, v.var? = some x →
    i ∈ e.watchers.getD x []
  watchers_lt : ∀ x, ∀ i ∈ e.watchers.getD x [], i < e.propagators.size

/-- The agenda lists propagators, each once, and exactly these are marked. -/
def Waiting (e : Engine) : Prop := e.toQueue.Valid e.propagators.size

/-- No propagator is waiting, and none is marked. -/
def Drained (e : Engine) : Prop := e.toQueue = .idle e.propagators.size

/-- A valuation of the store under which all propagators hold, and all of them are small. -/
def Needs (e : Engine) (a : Valuation) : Prop :=
  e.store.Admits a ∧ ∀ p ∈ e.propagators, p.Small e.store ∧ p.Holds a

/-- If all views of the propagator are fixed, it has accepted their values. -/
def Settled (s : Store) (p : Propagator) : Prop :=
  (∀ v ∈ p.views, s.isFixed v = true) → p.Accepts s.least

/-- The propagator has a view of the variable. -/
def Propagator.Reads (p : Propagator) (x : VarIndex) : Prop := ∃ v ∈ p.views, v.var? = some x

/-- A variable that the propagator reads is noted as changed. -/
def Woken (s : Store) (p : Propagator) : Prop :=
  ∃ v ∈ p.views, ∃ x ∈ s.modified, v.var? = some x

/-- Every propagator is waiting, woken or settled. -/
def Pending (e : Engine) : Prop :=
  ∀ i p, e.propagators[i]? = some p → i ∈ e.agenda ∨ Woken e.store p ∨ Settled e.store p

/-- One engine arises from another by losses alone. -/
structure Follows (e e' : Engine) : Prop where
  yields : e.store.Yields e'.store
  posted_eq : e'.posted = e.posted
  solution_eq : e'.solution = e.solution
  improvements_eq : e'.improvements = e.improvements

/-- One engine arises from another without losing a solution or a propagator out of sight. -/
structure Advances (e e' : Engine) : Prop extends Follows e e' where
  spares : ∀ a, Needs e a → e'.store.Admits a
  pending : Pending e → Pending e'

/-- What propagation does with an engine. -/
def Propagated (e : Engine) : EStateM.Result Failure Engine Unit → Prop
  | .ok _ e' => Advances e e' ∧ e'.Drained ∧ e'.store.modified = #[]
  | .error .conflict e' =>
    Follows e e' ∧ e'.Drained ∧ e'.store.modified = #[] ∧ ∀ a, ¬ Needs e a
  | .error .overflow _ => ¬ ∀ p ∈ e.propagators, p.Small e.store

variable {e e' e'' : Engine} {s t : Store} {p : Propagator} {a : Valuation} {i : Nat}

/-! ## Parts that stay -/

theorem propagators_eq_of_posted (h : e'.posted = e.posted) : e'.propagators = e.propagators :=
  congrArg (·.propagators) h

theorem objective_eq_of_posted (h : e'.posted = e.posted) : e'.objective = e.objective :=
  congrArg (·.objective) h

theorem watchers_eq_of_posted (h : e'.posted = e.posted) : e'.watchers = e.watchers :=
  congrArg (·.watchers) h

theorem WellFormed.legible (h : e.WellFormed) : e.Legible where
  proper := h.proper
  readable := fun p hp => (h.exact p hp).readable
  objective := h.objective
  watchers_size := h.watchers_size
  watched := h.watched
  watchers_lt := h.watchers_lt

theorem Legible.wellFormed (h : e.Legible) (hexact : ∀ p ∈ e.propagators, p.Exact e.store) :
    e.WellFormed where
  proper := h.proper
  exact := hexact
  objective := h.objective
  watchers_size := h.watchers_size
  watched := h.watched
  watchers_lt := h.watchers_lt

theorem Legible.of_le (h : e.Legible) (hproper : e'.store.Proper) (hle : e'.store ≤ e.store)
    (hposted : e'.posted = e.posted) : e'.Legible := by
  have hp := propagators_eq_of_posted hposted
  have hw := watchers_eq_of_posted hposted
  refine ⟨hproper, fun p hmem => ?_, fun direction v hobj => ?_, ?_, ?_, ?_⟩
  · exact (h.readable p (hp ▸ hmem)).mono hle
  · exact (h.objective direction v (objective_eq_of_posted hposted ▸ hobj)).mono hle
  · rw [hw, h.watchers_size, Store.numVariables_eq_of_le hle]
  · rw [hp, hw]
    exact h.watched
  · rw [hp, hw]
    exact h.watchers_lt

/-- Legibility and needs depend on the value sets and on what was posted. -/
theorem Legible.of_sets (h : e.Legible) (hsets : e'.store.sets = e.store.sets)
    (hposted : e'.posted = e.posted) : e'.Legible := by
  refine h.of_le (fun x hx => ?_) (Store.le_of_sets hsets) hposted
  have hx' : x < e.store.numVariables := by simpa only [Store.numVariables, hsets] using hx
  simpa only [Store.set, hsets] using h.proper x hx'

theorem WellFormed.of_yields (h : e.WellFormed) (hst : e.store.Yields e'.store)
    (hposted : e'.posted = e.posted) : e'.WellFormed :=
  (h.legible.of_le (hst.proper h.proper) hst.le hposted).wellFormed fun p hp =>
    (h.exact p (propagators_eq_of_posted hposted ▸ hp)).mono hst.le

theorem WellFormed.of_sets (h : e.WellFormed) (hsets : e'.store.sets = e.store.sets)
    (hposted : e'.posted = e.posted) : e'.WellFormed :=
  (h.legible.of_sets hsets hposted).wellFormed fun p hp =>
    (h.exact p (propagators_eq_of_posted hposted ▸ hp)).mono (Store.le_of_sets hsets)

theorem Needs.of_sets (h : Needs e a) (hsets : e'.store.sets = e.store.sets)
    (hposted : e'.posted = e.posted) : Needs e' a := by
  refine ⟨fun x hx => ?_, fun p hp => ?_⟩
  · have hx' : x < e.store.numVariables := by simpa only [Store.numVariables, hsets] using hx
    simpa only [Store.set, hsets] using h.1 x hx'
  · obtain ⟨hsmall, hholds⟩ := h.2 p (propagators_eq_of_posted hposted ▸ hp)
    exact ⟨hsmall.of_sets hsets, hholds⟩

theorem Settled.of_sets (h : Settled s p) (hsets : t.sets = s.sets) : Settled t p := by
  intro hfixed
  have hleast : t.least = s.least := by
    funext x
    simp only [Store.least, Store.set, hsets]
  rw [hleast]
  refine h fun v hv => ?_
  have hf := hfixed v hv
  cases v with
  | constant c => rfl
  | affine x negated offset => simpa only [Store.isFixed, Store.set, hsets] using hf

namespace Follows

theorem refl (e : Engine) : Follows e e := ⟨⟨_, .refl⟩, rfl, rfl, rfl⟩

theorem trans (h : Follows e e') (h' : Follows e' e'') : Follows e e'' :=
  ⟨h.yields.trans h'.yields, h'.posted_eq.trans h.posted_eq, h'.solution_eq.trans h.solution_eq,
    h'.improvements_eq.trans h.improvements_eq⟩

theorem propagators_eq (h : Follows e e') : e'.propagators = e.propagators :=
  propagators_eq_of_posted h.posted_eq

theorem wellFormed (h : Follows e e') (hw : e.WellFormed) : e'.WellFormed :=
  hw.of_yields h.yields h.posted_eq

theorem legible (h : Follows e e') (hw : e.Legible) : e'.Legible :=
  hw.of_le (h.yields.proper hw.proper) h.yields.le h.posted_eq

/-- Propagators stay small. -/
theorem small (h : Follows e e') (hw : e.Legible) (hsmall : ∀ p ∈ e.propagators, p.Small e.store) :
    ∀ p ∈ e'.propagators, p.Small e'.store := by
  intro p hp
  rw [h.propagators_eq] at hp
  exact (hw.readable p hp).small_mono (hsmall p hp) hw.proper (h.yields.proper hw.proper) h.yields.le

/-- A solution that is still admitted is still needed. -/
theorem needs (h : Follows e e') (hw : e.Legible) (ha : Needs e a) (ha' : e'.store.Admits a) :
    Needs e' a := by
  refine ⟨ha', fun p hp => ⟨h.small hw (fun p hp => (ha.2 p hp).1) p hp, ?_⟩⟩
  rw [h.propagators_eq] at hp
  exact (ha.2 p hp).2

end Follows

theorem Advances.trans (hw : e.Legible) (h : Advances e e') (h' : Advances e' e'') :
    Advances e e'' where
  toFollows := h.toFollows.trans h'.toFollows
  spares := fun a ha => h'.spares a (h.needs hw ha (h.spares a ha))
  pending := h'.pending ∘ h.pending

/-- What propagation does after a first step it also does from before that step. -/
theorem Propagated.of_advances {r : EStateM.Result Failure Engine Unit} (hr : Propagated e' r)
    (hw : e.Legible) (h : Advances e e') : Propagated e r := by
  match r, hr with
  | .ok _ e'', ⟨hadv, hend⟩ => exact ⟨h.trans hw hadv, hend⟩
  | .error .conflict e'', ⟨hfol, hagenda, hmod, hnone⟩ =>
    exact ⟨h.toFollows.trans hfol, hagenda, hmod, fun a ha =>
      hnone a (h.needs hw ha (h.spares a ha))⟩
  | .error .overflow e'', hr => exact fun hsmall => hr (h.toFollows.small hw hsmall)

/-! ## The agenda -/

theorem Drained.agenda_eq (h : e.Drained) : e.agenda = [] := congrArg (·.agenda) h

theorem Drained.waiting (h : e.Drained) : e.Waiting := by
  rw [Waiting, h]
  exact Queue.valid_idle _

/-- When the agenda is empty no mark is left. -/
theorem Waiting.drained (h : e.Waiting) (hnil : e.agenda = []) : e.Drained := h.eq_idle hnil

theorem toQueue_wake (e : Engine) :
    (wake e).toQueue = e.store.modified.toList.foldl
      (fun q x => (e.watchers.getD x []).foldl Queue.enqueue q) e.toQueue :=
  (Array.foldl_toList _).symm

theorem waiting_wake (hlt : ∀ x, ∀ i ∈ e.watchers.getD x [], i < e.propagators.size)
    (h : e.Waiting) : (wake e).Waiting := by
  rw [Waiting, toQueue_wake]
  exact (h.foldl_foldl_enqueue hlt _).1

/-- Waking adds the propagators that read a changed variable. -/
theorem mem_wake (hlt : ∀ x, ∀ i ∈ e.watchers.getD x [], i < e.propagators.size)
    (h : e.Waiting) : i ∈ (wake e).agenda ↔
      i ∈ e.agenda ∨ ∃ x ∈ e.store.modified, i ∈ e.watchers.getD x [] := by
  rw [toQueue_wake, (h.foldl_foldl_enqueue hlt _).2]
  simp only [Array.mem_toList_iff]

/-- Going on with the rest of the agenda leaves the others waiting. -/
theorem Waiting.next {rest : List Nat} (h : e.Waiting) (hagenda : e.agenda = i :: rest)
    (hrest : e'.toQueue = e.toQueue.dequeue i rest)
    (hpropagators : e'.propagators = e.propagators) : e'.Waiting := by
  rw [Waiting, hrest, hpropagators]
  exact h.dequeue hagenda

/-- After waking, every propagator that is not settled is waiting. -/
theorem advances_wake (hw : e.Legible) (hwait : e.Waiting) : Advances e (wake e) where
  yields := e.store.yields_clear #[]
  posted_eq := rfl
  solution_eq := rfl
  improvements_eq := rfl
  spares := fun a ha => ha.1
  pending := fun h i p hp => by
    have hmem := mem_wake (i := i) hw.watchers_lt hwait
    rcases h i p hp with hi | ⟨v, hv, x, hx, hvar⟩ | hset
    · exact .inl (hmem.mpr (.inl hi))
    · exact .inl (hmem.mpr (.inr ⟨x, hx, hw.watched i p hp v hv x hvar⟩))
    · exact .inr (.inr hset)

/-! ## One run of a propagator -/

/-- A variable that the propagator reads is noted as changed, or all of them are as before. -/
theorem woken_or_agree (hst : s.Narrows t) (p : Propagator) :
    Woken t p ∨ Store.Agree p.Reads s t := by
  by_cases hsame : Store.Agree p.Reads s t
  · exact .inr hsame
  · simp only [Store.Agree, not_forall] at hsame
    obtain ⟨x, ⟨v, hv, hx⟩, hne⟩ := hsame
    exact .inl ⟨v, hv, x, hst.mem_modified hne, hx⟩

/-- What was settled stays so unless a variable of the propagator is noted as changed. -/
theorem Settled.narrows (h : Settled s p) (hst : s.Narrows t) : Woken t p ∨ Settled t p := by
  refine (woken_or_agree hst p).imp_right fun hagree hfixed => ?_
  refine (h fun v hv => ?_).congr fun v hv => ?_
  · rw [← hagree.isFixed_eq fun x hx => ⟨v, hv, hx⟩]
    exact hfixed v hv
  · cases v with
    | constant c => rfl
    | affine x negated offset =>
        simp only [View.eval_affine, Store.least, hagree x ⟨_, hv, rfl⟩]

theorem Woken.narrows (h : Woken s p) (hst : s.Narrows t) : Woken t p := by
  obtain ⟨v, hv, x, hx, hvar⟩ := h
  exact ⟨v, hv, x, hst.modified_mono hx, hvar⟩

/-- The invariant survives losses that are noted. -/
theorem Pending.narrows (h : Pending e) (hst : e.store.Narrows t) : Pending { e with store := t } := by
  intro i p hp
  rcases h i p hp with hi | hwoken | hset
  · exact .inl hi
  · exact .inr (.inl (hwoken.narrows hst))
  · exact .inr (hset.narrows hst)

/-- A propagator that does not fail has woken itself or settled. -/
theorem settled_of_propagate (hs : s.Proper) (hp : p.Readable s) (hst : s.Narrows t)
    (hrun : p.propagate s = .ok () t) : Woken t p ∨ Settled t p := by
  by_cases hfixed : ∀ v ∈ p.views, s.isFixed v = true
  · have ha : s.Admits t.least := hst.admits (t.admits_least (hst.proper hs))
    have hvalue : ∀ v ∈ p.views, ∀ b, s.Admits b → v.eval b = v.eval t.least := fun v hv b hb =>
      Store.eval_eq_of_isFixed (hp.created v hv) (hfixed v hv) hb ha
    have hchecks := hp.checks hs hvalue ha s .refl
    rw [hrun] at hchecks
    exact .inr fun _ => hchecks.2
  · simp only [not_forall] at hfixed
    obtain ⟨v, hv, hf⟩ := hfixed
    cases v with
    | constant c => exact absurd rfl hf
    | affine x negated offset =>
        by_cases hsame : t.set x = s.set x
        · refine .inr fun hfixed => absurd (hfixed _ hv) ?_
          simpa only [Store.isFixed, hsame] using hf
        · exact .inl ⟨_, hv, x, hst.mem_modified hsame, rfl⟩

/-- The engine with another agenda and other marks. -/
def withQueue (e : Engine) (q : Queue) : Engine := { e with toQueue := q }

/-- The outcome of running the next propagator. -/
theorem runPropagator_spec {rest : List Nat} (hw : e.Legible) (hwait : e.Waiting)
    (hagenda : e.agenda = i :: rest) (hi : e.propagators[i]? = some p) :
    match Running.runPropagator i (e.next i rest) with
    | .ok _ e' => e.store.Narrows e'.store ∧ e' = { e.next i rest with store := e'.store } ∧
        (∀ a, Needs e a → e'.store.Admits a) ∧ (Woken e'.store p ∨ Settled e'.store p)
    | .error .conflict e' => Follows e e' ∧ e'.Drained ∧ e'.store.modified = #[] ∧
        ∀ a, ¬ Needs e a
    | .error .overflow _ => ¬ p.Small e.store := by
  have hmem : p ∈ e.propagators := Array.mem_of_getElem? hi
  have hp := hw.readable p hmem
  have hneeds : ∀ a, Needs e a → e.store.Admits a ∧ p.Small e.store ∧ p.Holds a :=
    fun a ha => ⟨ha.1, ha.2 p hmem⟩
  have hprunes := hp.prunes hw.proper e.store ⟨.refl, fun a ha => ha.1⟩
  have hi' : (e.next i rest).propagators[i]? = some p := hi
  have hstore : (e.next i rest).store = e.store := rfl
  simp only [Running.runPropagator, hi', Running.onStore, hstore]
  cases hrun : p.propagate e.store with
  | ok _ t =>
      rw [hrun] at hprunes
      exact ⟨hprunes.1.narrows, rfl, fun a ha => hprunes.1.admits a (hneeds a ha),
        settled_of_propagate hw.proper hp hprunes.1.narrows hrun⟩
  | error f t =>
      rw [hrun] at hprunes
      cases f with
      | conflict =>
          refine ⟨⟨?_, rfl, rfl, ?_⟩, (hwait.dequeue hagenda).drain_eq, rfl,
            fun a ha => hprunes.2 a (hneeds a ha)⟩
          · exact hprunes.1.yields.trans (t.yields_clear #[])
          · simp [improvements, settle, note, next, Event.improvement?]
      | overflow => exact hprunes

/-- Running the next propagator advances the engine. -/
theorem advances_runPropagator {rest : List Nat} (hw : e.Legible) (hwait : e.Waiting)
    (hagenda : e.agenda = i :: rest) (hi : e.propagators[i]? = some p)
    (hrun : Running.runPropagator i (e.next i rest) = .ok () e') :
    Advances e e' ∧ e.store.Narrows e'.store ∧ e'.toQueue = e.toQueue.dequeue i rest := by
  have hspec := runPropagator_spec hw hwait hagenda hi
  rw [hrun] at hspec
  obtain ⟨hst, heq, hspares, hsettled⟩ := hspec
  generalize e'.store = t at *
  subst heq
  refine ⟨⟨⟨hst.yields, rfl, rfl, rfl⟩, fun a ha => hspares a ha, fun h j q hq => ?_⟩, hst, rfl⟩
  rcases h j q hq with hj | hwoken | hset
  · rw [hagenda, List.mem_cons] at hj
    rcases hj with rfl | hj
    · obtain rfl : p = q := Option.some.inj (hi.symm.trans hq)
      exact .inr hsettled
    · exact .inl hj
  · exact .inr (.inl (hwoken.narrows hst))
  · exact .inr (hset.narrows hst)

/-! ## Running all waiting propagators -/

/-- An upper bound for the runs that are still to come. -/
def remaining (e : Engine) : Nat :=
  e.store.slack * (e.propagators.size + 1) + (wake e).agenda.length

/-- A run that takes a propagator off the agenda, without or with losses, leaves fewer. -/
theorem remaining_lt {rest : List Nat} (hagenda : e.agenda = i :: rest)
    (hmodified : e.store.modified = #[]) (hst : e.store.Narrows e'.store)
    (hpropagators : e'.propagators = e.propagators)
    (hrest : e'.toQueue = e.toQueue.dequeue i rest)
    (hle : (wake e').agenda.length ≤ e'.propagators.size) :
    e'.remaining < e.store.slack * (e.propagators.size + 1) + e.agenda.length := by
  rw [remaining, hpropagators] at *
  rcases hst.eq_or_slack_lt with hsame | hlt
  · have hnone : e'.store.modified = #[] := hsame ▸ hmodified
    have hwake : (wake e').agenda = rest := by simp [wake, hnone, hrest, Queue.dequeue]
    simp [hwake, hsame, hagenda]
  · have := Nat.mul_le_mul_right (e.propagators.size + 1) (Nat.succ_le_of_lt hlt)
    rw [hagenda, List.length_cons]
    rw [Nat.succ_mul] at this
    omega

theorem runWaiting_succ (count : Nat) (e : Engine) :
    Running.runWaiting (count + 1) e =
      match (wake e).agenda with
      | [] => .ok () (wake e)
      | i :: rest =>
        match Running.runPropagator i ((wake e).next i rest) with
        | .ok _ e' => Running.runWaiting count e'
        | .error f e' => .error f e' := by
  simp only [Running.runWaiting, bind, EStateM.bind, modify_apply, get_apply]
  cases (wake e).agenda with
  | nil => rfl
  | cons i rest =>
      simp only [EStateM.bind, modify_apply]
      generalize Running.runPropagator i _ = r
      cases r <;> rfl

/-- The loop runs until nothing is waiting. Whatever an invariant yields at the end, and every run
passes back to what was before it, is true of the whole loop. -/
theorem runWaiting_induct {I : Engine → Prop}
    {P : Engine → EStateM.Result Failure Engine Unit → Prop}
    (hend : ∀ e, I e → (wake e).agenda = [] → P e (.ok () (wake e)))
    (hstep : ∀ e i rest, I e → (wake e).agenda = i :: rest →
      match Running.runPropagator i ((wake e).next i rest) with
      | .ok _ e' => I e' ∧ e'.remaining < e.remaining ∧ ∀ r, P e' r → P e r
      | .error f e' => P e (.error f e'))
    (count : Nat) (he : I e) (hcount : e.remaining < count) :
    P e (Running.runWaiting count e) := by
  induction count generalizing e with
  | zero => omega
  | succ count ih =>
      rw [runWaiting_succ]
      split
      · next hnil => exact hend e he hnil
      · next i rest hcons =>
        have hstep := hstep e i rest he hcons
        split
        · next e' hrun =>
          rw [hrun] at hstep
          obtain ⟨hI, hfewer, hback⟩ := hstep
          exact hback _ (ih hI (by omega))
        · next f e' hrun =>
          rw [hrun] at hstep
          exact hstep

/-- Propagation is granted enough runs. -/
theorem remaining_lt_of_waiting (h : (wake e).Waiting) :
    e.remaining < (e.store.potential + 1) * (e.propagators.size + 1) + 1 := by
  have hle := h.length_le
  have hslack := Nat.mul_le_mul_right (e.propagators.size + 1) e.store.slack_lt_potential.le
  have hsize : (wake e).propagators.size = e.propagators.size := rfl
  rw [remaining, Nat.succ_mul]
  omega

/-- Propagation runs to the end: it loses no solution, and finds a conflict only where there
is none. -/
theorem propagated_propagate (hw : e.Legible) (hwait : e.Waiting) :
    Propagated e (Running.propagate e) := by
  refine runWaiting_induct (I := fun e => e.Legible ∧ e.Waiting) (P := Propagated) ?_ ?_ _
    ⟨hw, hwait⟩ (remaining_lt_of_waiting (waiting_wake hw.watchers_lt hwait))
  · rintro e ⟨hw, hwait⟩ hnil
    have hr : Propagated (wake e) (.ok () (wake e)) :=
      ⟨⟨.refl _, fun a ha => ha.1, id⟩, (waiting_wake hw.watchers_lt hwait).drained hnil, rfl⟩
    exact hr.of_advances hw (advances_wake hw hwait)
  · rintro e i rest ⟨hw, hwait⟩ hcons
    have hadv := advances_wake hw hwait
    have hw' := hadv.legible hw
    have hwait' := waiting_wake hw.watchers_lt hwait
    have hlt := hwait'.lt i (by simp [hcons])
    have hi : (wake e).propagators[i]? = some (wake e).propagators[i] :=
      Array.getElem?_eq_getElem hlt
    have hspec := runPropagator_spec hw' hwait' hcons hi
    split
    · next e' hrun =>
      obtain ⟨hadv', hst, hrest⟩ := advances_runPropagator hw' hwait' hcons hi hrun
      have hwait'' := hwait'.next hcons hrest hadv'.propagators_eq
      have hw'' := hadv'.legible hw'
      exact ⟨⟨hw'', hwait''⟩, remaining_lt hcons rfl hst hadv'.propagators_eq hrest
        (waiting_wake hw''.watchers_lt hwait'').length_le,
        fun r hr => (hr.of_advances hw' hadv').of_advances hw hadv⟩
    · next f e' hrun =>
      rw [hrun] at hspec
      refine Propagated.of_advances ?_ hw hadv
      cases f with
      | conflict => exact hspec
      | overflow => exact fun hsmall => hspec (hsmall _ (Array.getElem_mem hlt))

/-- At the end of propagation all propagators are settled. -/
theorem settled_of_pending (h : Pending e) (hdrained : e.Drained)
    (hmodified : e.store.modified = #[]) (hp : p ∈ e.propagators) : Settled e.store p := by
  obtain ⟨i, hi, rfl⟩ := Array.mem_iff_getElem.mp hp
  rcases h i _ (Array.getElem?_eq_getElem hi) with hi | ⟨v, -, x, hx, -⟩ | hset
  · simp [hdrained.agenda_eq] at hi
  · simp [hmodified] at hx
  · exact hset

end FiniteDomain.Engine
