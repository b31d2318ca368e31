import FiniteDomain.Proofs.Engine.Fixpoint
import FiniteDomain.Proofs.Engine.Losses

/-!
# Propagation comes to rest

Between two calls an engine is at rest: nothing is waiting, and no change is noted. Propagation
comes back to rest on every way out, whether it ends or finds a conflict, and loses values at most.
This holds of views that leave the 64-bit range as well.
-/

namespace FiniteDomain.Engine

open Narrowing

variable {e e' e'' : Engine} {p : Propagator} {i : Nat}

/-- All views of the engine read created variables, and the watchers are propagators. -/
structure Grounded (e : Engine) : Prop where
  proper : e.store.Proper
  created : ∀ p ∈ e.propagators, p.Created e.store
  objective : ∀ direction v, e.objective = some (direction, v) → v.Created e.store
  watchers_lt : ∀ x, ∀ i ∈ e.watchers.getD x [], i < e.propagators.size

/-- An engine between two calls: nothing is waiting, and no change is noted. -/
structure Resting (e : Engine) : Prop extends Grounded e where
  drained : e.Drained
  modified_eq : e.store.modified = #[]

/-- No propagator is a linear equality with too large coefficients. -/
def Bounded (e : Engine) : Prop := ∀ p ∈ e.propagators, p.Bounded

/-- One engine arises from another by losses alone, and nothing is left to be done. -/
structure Rests (e e' : Engine) : Prop extends Follows e e' where
  drained : e'.Drained
  modified_eq : e'.store.modified = #[]

theorem Grounded.of_posted (h : Grounded e) (hproper : e'.store.Proper)
    (hsize : e'.store.numVariables = e.store.numVariables) (hposted : e'.posted = e.posted) :
    Grounded e' where
  proper := hproper
  created := fun p hp => (h.created p (propagators_eq_of_posted hposted ▸ hp)).mono hsize.ge
  objective := fun direction v hv =>
    (h.objective direction v (objective_eq_of_posted hposted ▸ hv)).mono hsize.ge
  watchers_lt := by
    rw [propagators_eq_of_posted hposted, watchers_eq_of_posted hposted]
    exact h.watchers_lt

/-- Losing values keeps an engine grounded. -/
theorem Follows.grounded (h : Follows e e') (hg : Grounded e) : Grounded e' :=
  hg.of_posted (h.yields.proper hg.proper) h.yields.le.1 h.posted_eq

theorem bounded_iff_of_posted (h : e'.posted = e.posted) : Bounded e' ↔ Bounded e := by
  rw [Bounded, Bounded, propagators_eq_of_posted h]

theorem Rests.resting (h : Rests e e') (hg : Grounded e) : Resting e' where
  toGrounded := h.grounded hg
  drained := h.drained
  modified_eq := h.modified_eq

/-! ## Propagation -/

/-- What propagation leaves behind, whatever it has found. -/
def Rested (e : Engine) : EStateM.Result Failure Engine Unit → Prop
  | .ok _ e' => Rests e e'
  | .error .conflict e' => Rests e e'
  | .error .overflow _ => ¬ Bounded e

theorem Rested.of_follows {r : EStateM.Result Failure Engine Unit} (hr : Rested e' r)
    (h : Follows e e') : Rested e r := by
  match r, hr with
  | .ok _ e'', hr => exact ⟨h.trans hr.toFollows, hr.drained, hr.modified_eq⟩
  | .error .conflict e'', hr => exact ⟨h.trans hr.toFollows, hr.drained, hr.modified_eq⟩
  | .error .overflow e'', hr =>
    exact fun hbounded => hr ((bounded_iff_of_posted h.posted_eq).mpr hbounded)

/-- One run of a propagator loses values at most, and a conflict clears the agenda. -/
theorem rested_runPropagator {rest : List Nat} (hg : Grounded e) (hwait : e.Waiting)
    (hagenda : e.agenda = i :: rest) (hi : e.propagators[i]? = some p) :
    match Running.runPropagator i (e.next i rest) with
    | .ok _ e' => e.store.Narrows e'.store ∧ Follows e e' ∧
        e'.toQueue = e.toQueue.dequeue i rest
    | .error f e' => Rested e (.error f e') := by
  have hmem : p ∈ e.propagators := Array.mem_of_getElem? hi
  have hloses := Propagator.loses hg.proper (hg.created p hmem) e.store .refl
  have hi' : (e.next i rest).propagators[i]? = some p := hi
  have hstore : (e.next i rest).store = e.store := rfl
  simp only [Running.runPropagator, hi', Running.onStore, hstore]
  generalize p.propagate e.store = r at hloses ⊢
  rcases r with ⟨_, t⟩ | ⟨f, t⟩
  · obtain ⟨hst, -⟩ := hloses
    exact ⟨hst, ⟨hst.yields, rfl, rfl, rfl⟩, rfl⟩
  · cases f with
    | conflict =>
        have hst : e.store.Narrows t := hloses
        refine ⟨⟨?_, rfl, rfl, ?_⟩, (hwait.dequeue hagenda).drain_eq, rfl⟩
        · exact hst.yields.trans (t.yields_clear #[])
        · simp [improvements, settle, note, next, Event.improvement?]
    | overflow => exact fun hbounded => hloses (hbounded p hmem)

theorem follows_wake (e : Engine) : Follows e (wake e) :=
  ⟨e.store.yields_clear #[], rfl, rfl, rfl⟩

/-- One round of propagation: the next propagator runs, and either the engine can go on, with fewer
runs to come, or it rests. -/
theorem continues_runPropagator {rest : List Nat} (hg : Grounded e) (hwait : e.Waiting)
    (hcons : (wake e).agenda = i :: rest) :
    match Running.runPropagator i ((wake e).next i rest) with
    | .ok _ e' => (Grounded e' ∧ e'.Waiting) ∧ e'.remaining < e.remaining ∧ Follows e e'
    | .error f e' => Rested e (.error f e') := by
  have hg' := (follows_wake e).grounded hg
  have hwait' := waiting_wake hg.watchers_lt hwait
  have hlt := hwait'.lt i (by simp [hcons])
  have hrun := rested_runPropagator hg' hwait' hcons (Array.getElem?_eq_getElem hlt)
  split
  · next e' heq =>
    rw [heq] at hrun
    obtain ⟨hst, hfol, hrest⟩ := hrun
    have hwait'' := hwait'.next hcons hrest hfol.propagators_eq
    have hg'' := hfol.grounded hg'
    exact ⟨⟨hg'', hwait''⟩, remaining_lt hcons rfl hst hfol.propagators_eq hrest
      (waiting_wake hg''.watchers_lt hwait'').length_le, (follows_wake e).trans hfol⟩
  · next f e' heq =>
    rw [heq] at hrun
    exact hrun.of_follows (follows_wake e)

/-- Propagation comes to rest. -/
theorem rested_propagate (hg : Grounded e) (hwait : e.Waiting) : Rested e (Running.propagate e) := by
  refine runWaiting_induct (I := fun e => Grounded e ∧ e.Waiting) (P := Rested) ?_ ?_ _
    ⟨hg, hwait⟩ (remaining_lt_of_waiting (waiting_wake hg.watchers_lt hwait))
  · exact fun e ⟨hg, hwait⟩ hnil =>
      ⟨follows_wake e, (waiting_wake hg.watchers_lt hwait).drained hnil, rfl⟩
  · rintro e i rest ⟨hg, hwait⟩ hcons
    have hnext := continues_runPropagator hg hwait hcons
    split
    · next e' heq =>
      rw [heq] at hnext
      exact ⟨hnext.1, hnext.2.1, fun r hr => hr.of_follows hnext.2.2⟩
    · next f e' heq =>
      rw [heq] at hnext
      exact hnext

end FiniteDomain.Engine
