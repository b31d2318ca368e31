import FiniteDomain.Proofs.Engine.Locality
import FiniteDomain.Proofs.Engine.Termination

/-!
# Propagation reaches a common fixpoint

At the end of propagation every propagator would do nothing if it were run again. A propagator that
has just run may still have to run once more, because it need not do all that it can at once, and a
change of a variable brings back those that have done nothing so far. So the invariant of the loop is
that a propagator is waiting, or one of its variables is noted as changed, or it does nothing. A run
keeps this because it takes the propagator off the agenda first, because whatever it changes is
noted, and because what a propagator does not read does not matter to it.
-/

namespace FiniteDomain.Engine

open Narrowing

variable {e e' : Engine} {s t : Store} {p : Propagator} {i : Nat} {x : VarIndex}
  {action : Narrowing Unit} {r r' : EStateM.Result Failure Engine Unit}

/-! ## The invariant of the loop -/

/-- Every propagator is waiting, or woken, or does nothing. -/
def Poised (e : Engine) : Prop :=
  ∀ i p, e.propagators[i]? = some p → i ∈ e.agenda ∨ Woken e.store p ∨ Inert e.store p

theorem WellFormed.created (h : e.WellFormed) (hp : p ∈ e.propagators) : p.Created e.store :=
  fun v hv => (h.exact p hp v hv).created

theorem WellFormed.grounded (h : e.WellFormed) : Grounded e where
  proper := h.proper
  created := fun _ hp => h.created hp
  objective := fun direction v hv => (h.objective direction v hv).created
  watchers_lt := h.watchers_lt

/-- What a propagator does depends on the value sets alone. -/
theorem Inert.of_sets (h : Inert s p) (hs : s.Proper) (hp : p.Created s) (hsets : t.sets = s.sets) :
    Inert t p := by
  have hset : ∀ x, t.set x = s.set x := fun x => by simp only [Store.set, hsets]
  have hsize : t.numVariables = s.numVariables := by simp only [Store.numVariables, hsets]
  refine h.of_agree hs hp (fun x hx => ?_) (hp.mono hsize.ge) fun x _ => hset x
  rw [hset]
  exact hs x (hsize ▸ hx)

/-- A propagator that does nothing does nothing either after further variables were created. -/
theorem Inert.extend (h : Inert s p) (hs : s.Proper) (hp : p.Created s) (hst : s.Extends t)
    (ht : t.Proper) : Inert t p :=
  h.of_agree hs hp ht (hp.mono hst.numVariables_le) fun x ⟨v, hv, hx⟩ =>
    hst.set_eq x (hp v hv x hx)

/-- Waking puts on the agenda what is woken. -/
theorem Poised.wake (h : Poised e) (hw : e.WellFormed) (hwait : e.Waiting) :
    Poised (wake e) := by
  intro i p hi
  have hwake := mem_wake (i := i) hw.watchers_lt hwait
  rcases h i p hi with hmem | ⟨v, hv, x, hx, hvar⟩ | hinert
  · exact .inl (hwake.mpr (.inl hmem))
  · exact .inl (hwake.mpr (.inr ⟨x, hx, hw.watched i p hi v hv x hvar⟩))
  · exact .inr (.inr (hinert.of_sets hw.proper (hw.created (Array.mem_of_getElem? hi)) rfl))

/-- Losses are noted, so nothing that they concern is missed. -/
theorem Poised.narrows (h : Poised e) (hg : Grounded e) (hst : e.store.Narrows t) :
    Poised (e.withStore t) := by
  intro i p hi
  rcases h i p hi with hmem | hwoken | hinert
  · exact .inl hmem
  · exact .inr (.inl (hwoken.narrows hst))
  · exact .inr (hinert.narrows hg.proper (hg.created p (Array.mem_of_getElem? hi)) hst)

/-- A successful run is one of the propagator on the store, and touches nothing else. -/
theorem runPropagator_ok {rest : List Nat} (hi : e.propagators[i]? = some p)
    (hrun : Running.runPropagator i (e.next i rest) = .ok () e') :
    ∃ t, p.propagate e.store = .ok () t ∧ e' = (e.next i rest).withStore t := by
  have hi' : (e.next i rest).propagators[i]? = some p := hi
  have hstore : (e.next i rest).store = e.store := rfl
  simp only [Running.runPropagator, hi', Running.onStore, hstore] at hrun
  generalize p.propagate e.store = r at hrun ⊢
  rcases r with ⟨_, t⟩ | ⟨f, t⟩
  · cases hrun
    exact ⟨t, rfl, rfl⟩
  · cases f <;> cases hrun

/-- After its run a propagator is off the agenda; it is woken then or does nothing. -/
theorem Poised.runPropagator {rest : List Nat} (h : Poised e) (hg : Grounded e)
    (hagenda : e.agenda = i :: rest) (hi : e.propagators[i]? = some p)
    (hrun : Running.runPropagator i (e.next i rest) = .ok () e') : Poised e' := by
  obtain ⟨t, hpropagate, rfl⟩ := runPropagator_ok hi hrun
  have hmem := Array.mem_of_getElem? hi
  have hst : e.store.Narrows t := by
    have hloses := Propagator.loses hg.proper (hg.created p hmem) e.store .refl
    rw [hpropagate] at hloses
    exact hloses.1
  intro j q hj
  rcases h.narrows hg hst j q hj with hmemj | hwoken | hinert
  · have hmemj : j ∈ i :: rest := hagenda ▸ hmemj
    rcases List.mem_cons.mp hmemj with rfl | hrest
    · obtain rfl : p = q := Option.some.inj (hi.symm.trans hj)
      exact .inr (woken_or_inert_of_propagate hg.proper (hg.created p hmem) hst hpropagate)
    · exact .inl hrest
  · exact .inr (.inl hwoken)
  · exact .inr (.inr hinert)

/-- The loop keeps the invariant to its end. -/
theorem Loops.poised (h : Loops e (.ok () e')) (hw : e.WellFormed) (hwait : e.Waiting)
    (hpoised : Poised e) : Poised e' := by
  generalize hr : EStateM.Result.ok () e' = r at h
  induction h with
  | idle _ =>
      cases hr
      exact hpoised.wake hw hwait
  | @run e e₁ i rest r hcons hrun _ ih =>
      have hnext := continues_runPropagator hw.grounded hwait hcons
      rw [hrun] at hnext
      obtain ⟨⟨-, hwait'⟩, -, hfol⟩ := hnext
      have hlt := (waiting_wake hw.watchers_lt hwait).lt i (by simp [hcons])
      refine ih (hfol.wellFormed hw) hwait' ?_ hr
      exact (hpoised.wake hw hwait).runPropagator ((follows_wake e).grounded hw.grounded) hcons
        (Array.getElem?_eq_getElem hlt) hrun
  | stop _ _ => cases hr

/-- The loop has one outcome. -/
theorem Loops.unique (h : Loops e r) (h' : Loops e r') : r' = r := by
  induction h with
  | idle hnil =>
      cases h' with
      | idle _ => rfl
      | run hcons _ _ => rw [hnil] at hcons; cases hcons
      | stop hcons _ => rw [hnil] at hcons; cases hcons
  | run hcons hrun _ ih =>
      cases h' with
      | idle hnil => rw [hnil] at hcons; cases hcons
      | run hcons' hrun' hloops =>
          obtain ⟨rfl, rfl⟩ := List.cons.inj (hcons.symm.trans hcons')
          rw [hrun] at hrun'
          cases hrun'
          exact ih hloops
      | stop hcons' hrun' =>
          obtain ⟨rfl, rfl⟩ := List.cons.inj (hcons.symm.trans hcons')
          rw [hrun] at hrun'
          cases hrun'
  | stop hcons hrun =>
      cases h' with
      | idle hnil => rw [hnil] at hcons; cases hcons
      | run hcons' hrun' _ =>
          obtain ⟨rfl, rfl⟩ := List.cons.inj (hcons.symm.trans hcons')
          rw [hrun] at hrun'
          cases hrun'
      | stop hcons' hrun' =>
          obtain ⟨rfl, rfl⟩ := List.cons.inj (hcons.symm.trans hcons')
          rw [hrun] at hrun'
          cases hrun'
          rfl

/-! ## Fixpoints -/

/-- No propagator is waiting or marked as waiting, and no variable is noted as changed. -/
structure Cleared (e : Engine) : Prop where
  agenda_eq : e.agenda = []
  unmarked : e.marked = Array.replicate e.propagators.size false
  modified_eq : e.store.modified = #[]

/-- Nothing is left to do, and running any propagator once more succeeds and changes nothing. -/
structure Fixpoint (e : Engine) : Prop extends Cleared e where
  inert : ∀ p ∈ e.propagators, Inert e.store p

theorem Drained.cleared (h : e.Drained) (hmodified : e.store.modified = #[]) : Cleared e :=
  ⟨h.agenda_eq, congrArg (·.marked) h, hmodified⟩

theorem Cleared.drained (h : Cleared e) : e.Drained :=
  congrArg₂ Queue.mk h.agenda_eq h.unmarked

theorem Fixpoint.poised (h : Fixpoint e) : Poised e := fun _ p hi =>
  .inr (.inr (h.inert p (Array.mem_of_getElem? hi)))

/-- With nothing waiting and nothing noted, the invariant leaves a fixpoint. -/
theorem Poised.fixpoint (h : Poised e) (hdrained : e.Drained) (hmodified : e.store.modified = #[]) :
    Fixpoint e where
  toCleared := hdrained.cleared hmodified
  inert := fun p hp => by
    obtain ⟨i, hi, rfl⟩ := Array.mem_iff_getElem.mp hp
    rcases h i _ (Array.getElem?_eq_getElem hi) with hmem | ⟨v, -, x, hx, -⟩ | hinert
    · simp [hdrained.agenda_eq] at hmem
    · simp [hmodified] at hx
    · exact hinert

/-- Views do not leave the 64-bit range, and sums of linear equalities stay small. -/
structure Tame (e : Engine) : Prop extends WellFormed e where
  small : ∀ p ∈ e.propagators, p.Small e.store

/-- An engine in which the loop of propagation may start. -/
structure Ready (e : Engine) : Prop extends Tame e where
  waiting : e.Waiting
  poised : Poised e

/-- What the loop of propagation concludes: a fixpoint in which no solution is lost, or that there
is none. Nothing is left waiting in either case. -/
def Concludes (e : Engine) : EStateM.Result Failure Engine Unit → Prop
  | .ok _ e' => e'.posted = e.posted ∧ Fixpoint e' ∧ ∀ a, IsSolution e a → e'.store.Admits a
  | .error .conflict e' => e'.posted = e.posted ∧ Cleared e' ∧ ∀ a, ¬ IsSolution e a
  | .error .overflow _ => False

theorem Tame.of_follows (h : Tame e) (hfol : Follows e e') : Tame e' :=
  ⟨hfol.wellFormed h.toWellFormed, hfol.small h.toWellFormed.legible h.small⟩

theorem Tame.of_sets (h : Tame e) (hsets : e'.store.sets = e.store.sets)
    (hposted : e'.posted = e.posted) : Tame e' :=
  ⟨h.toWellFormed.of_sets hsets hposted, fun p hp =>
    (h.small p (propagators_eq_of_posted hposted ▸ hp)).of_sets hsets⟩

theorem Tame.needs {a : Valuation} (h : Tame e) (ha : IsSolution e a) : Needs e a :=
  ⟨ha.1, fun p hp => ⟨h.small p hp, ha.2 p hp⟩⟩

/-- From an engine that is ready the loop of propagation terminates, with one outcome. -/
theorem Ready.loops_iff (h : Ready e) : Loops e r ↔ r = Running.propagate e := by
  have hloops := loops_propagate h.toWellFormed.grounded h.waiting
  exact ⟨hloops.unique, fun hr => hr ▸ hloops⟩

/-- From an engine that is ready propagation reaches a fixpoint or finds that there is no solution. -/
theorem Ready.concludes (h : Ready e) : Concludes e (Running.propagate e) := by
  have hprop := propagated_propagate h.toWellFormed.legible h.waiting
  have hloops := loops_propagate h.toWellFormed.grounded h.waiting
  match Running.propagate e, hprop, hloops with
  | .ok _ e', ⟨hadv, hdrained, hmodified⟩, hloops =>
    have hpoised := hloops.poised h.toWellFormed h.waiting h.poised
    exact ⟨hadv.posted_eq, hpoised.fixpoint hdrained hmodified,
      fun a ha => hadv.spares a (h.toTame.needs ha)⟩
  | .error .conflict e', ⟨hfol, hdrained, hmodified, hnone⟩, _ =>
    exact ⟨hfol.posted_eq, hdrained.cleared hmodified,
      fun a ha => hnone a (h.toTame.needs ha)⟩
  | .error .overflow e', hlarge, _ => exact hlarge h.small

/-! ## Fixpoints of tame engines -/

/-- A tame engine at a fixpoint. -/
structure Balanced (e : Engine) : Prop extends Tame e, Fixpoint e

namespace Balanced

theorem of_sets (h : Balanced e) (hsets : e'.store.sets = e.store.sets)
    (hposted : e'.posted = e.posted) (hdrained : e'.Drained) (hmodified : e'.store.modified = #[]) :
    Balanced e' where
  toTame := h.toTame.of_sets hsets hposted
  toFixpoint :=
    ⟨hdrained.cleared hmodified, fun p hp =>
      have hp : p ∈ e.propagators := propagators_eq_of_posted hposted ▸ hp
      (h.inert p hp).of_sets h.proper (h.toWellFormed.created hp) hsets⟩

/-- After losses at a fixpoint the loop of propagation may start. -/
theorem ready (h : Balanced e) (hst : e.store.Narrows t) : Ready (e.withStore t) where
  toTame := h.toTame.of_follows (e.follows_withStore hst.yields)
  waiting := waiting_withStore h.toCleared.drained t
  poised := h.toFixpoint.poised.narrows h.toWellFormed.grounded hst

end Balanced

/-- When the loop ends without a conflict, it is at a fixpoint. -/
theorem Ready.balanced (h : Ready e) (hprop : Propagates e true e') : Balanced e' := by
  cases hprop with
  | consistent hloops =>
      have hspec := propagated_propagate h.toWellFormed.legible h.waiting
      have hconcludes := h.concludes
      rw [← h.loops_iff.mp hloops] at hspec hconcludes
      exact ⟨h.toTame.of_follows hspec.1.toFollows, hconcludes.2.1⟩

/-- Narrowing and then propagating leads from one fixpoint to another. -/
theorem Balanced.settles (h : Balanced e)
    (haction : Loses e.store True action fun _ => True) (hsettles : Settles action e true e') :
    Balanced e' := by
  cases hsettles with
  | narrowed hact hprop =>
      have hst := haction e.store .refl
      rw [hact] at hst
      exact (h.ready hst.1).balanced hprop

end FiniteDomain.Engine
