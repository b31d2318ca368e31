import FiniteDomain.Proofs.Engine.Traces
import Mathlib.Algebra.Order.BigOperators.Ring.Finset

/-!
# Counting the search tree

A search that exhausts its tree has met one leaf more than it has made decisions, and each leaf is
a solution or a dead end. One that stops early has found a single solution, and no more dead ends
than it has made decisions. The two branches of a node divide the values of a variable among them, so
no more decisions can be made than there are ways to choose a value for each variable, less one.
-/

namespace FiniteDomain.Engine

variable {e e' : Engine} {consistent : Bool} {x : VarIndex}

/-! ## Room for decisions -/

namespace Store

variable {s t : Store} {k : Nat}

/-- The number of ways to choose a value for each variable. -/
def volume (s : Store) : Nat := ∏ x ∈ Finset.range s.numVariables, (s.set x).members.card

/-- The number of ways to choose a value for each variable but one. -/
def others (s : Store) (x : VarIndex) : Nat :=
  ∏ y ∈ (Finset.range s.numVariables).erase x, (s.set y).members.card

theorem volume_eq (hx : x < s.numVariables) :
    s.volume = (s.set x).members.card * s.others x :=
  (Finset.mul_prod_erase _ (fun y => (s.set y).members.card) (Finset.mem_range.mpr hx)).symm

theorem volume_pos (hs : s.Proper) : 0 < s.volume :=
  Finset.prod_pos fun x hx => (hs x (Finset.mem_range.mp hx)).card_pos

theorem others_pos (hs : s.Proper) : 0 < s.others x :=
  Finset.prod_pos fun y hy => (hs y (Finset.mem_range.mp (Finset.mem_of_mem_erase hy))).card_pos

theorem card_members_le (h : t ≤ s) (x : VarIndex) :
    (t.set x).members.card ≤ (s.set x).members.card :=
  Finset.card_le_card fun _ hv =>
    ValueSet.mem_members.mpr (mem_of_le h (ValueSet.mem_members.mp hv))

theorem volume_mono (h : t ≤ s) : t.volume ≤ s.volume := by
  rw [volume, volume, numVariables_eq_of_le h]
  exact Finset.prod_le_prod' fun x _ => card_members_le h x

theorem others_mono (h : t ≤ s) : t.others x ≤ s.others x := by
  rw [others, others, numVariables_eq_of_le h]
  exact Finset.prod_le_prod' fun y _ => card_members_le h y

/-- Below a store there is room for what the values of one variable leave. -/
theorem volume_le (h : t ≤ s) (hx : x < s.numVariables) (hcard : (t.set x).members.card ≤ k) :
    t.volume ≤ k * s.others x := by
  rw [volume_eq (numVariables_eq_of_le h ▸ hx)]
  exact Nat.mul_le_mul hcard (others_mono h)

/-- More decisions than can be made below a state; a dead end leaves no room for any. -/
def room (consistent : Bool) (s : Store) : Nat := if consistent then s.volume else 1

theorem room_le (hpos : 0 < k) (hs : s.Proper)
    (h : consistent = true → t.volume ≤ k * s.others x) : t.room consistent ≤ k * s.others x := by
  cases consistent with
  | true => exact h rfl
  | false => exact Nat.mul_pos hpos (others_pos hs)

end Store

/-! ## Counts -/

namespace Search

variable {s t u w : Search} {ending : Ending} {solutions nodes failures : Nat}

/-- A part of the search has found so many solutions, made so many decisions, and met so many dead
ends. -/
structure Counts (s t : Search) (solutions nodes failures : Nat) : Prop where
  solutions_eq : t.statistics.solutions = s.statistics.solutions + solutions
  nodes_eq : t.statistics.nodes = s.statistics.nodes + nodes
  failures_eq : t.statistics.failures = s.statistics.failures + failures

theorem Counts.trans {solutions' nodes' failures' : Nat} (h : Counts s t solutions nodes failures)
    (h' : Counts t u solutions' nodes' failures') :
    Counts s u (solutions + solutions') (nodes + nodes') (failures + failures') where
  solutions_eq := by rw [h'.solutions_eq, h.solutions_eq, Nat.add_assoc]
  nodes_eq := by rw [h'.nodes_eq, h.nodes_eq, Nat.add_assoc]
  failures_eq := by rw [h'.failures_eq, h.failures_eq, Nat.add_assoc]

theorem Decides.counts (h : Decides s x consistent t) : Counts s t 0 1 0 := by
  cases h
  exact ⟨rfl, rfl, rfl⟩

theorem Refutes.counts (h : Refutes s x u consistent w) : Counts u w 0 0 0 := by
  cases h
  exact ⟨rfl, rfl, rfl⟩

/-- In an exhausted tree each leaf is a solution or a dead end, and without an objective none is a
solution. A search that is satisfied has no objective, and its solution is the only one. -/
def Tallies (objective : Option (Direction × View)) (solutions nodes failures : Nat) :
    Ending → Prop
  | .exhausted => solutions + failures = nodes + 1 ∧ (objective = none → solutions = 0)
  | .satisfied => objective = none ∧ solutions = 1 ∧ failures ≤ nodes

theorem counts_accept (hrun : accept s = .ok ending t) :
    Counts s t 1 0 0 ∧ Tallies s.engine.objective 1 0 0 ending := by
  rw [accept_eq] at hrun
  cases hobj : s.engine.objective with
  | none =>
      rw [hobj] at hrun
      cases hrun
      exact ⟨⟨rfl, rfl, rfl⟩, rfl, rfl, le_rfl⟩
  | some _ =>
      rw [hobj] at hrun
      cases hrun
      exact ⟨⟨rfl, rfl, rfl⟩, rfl, nofun⟩

/-- The side of the decided value has room for what the other variables leave. -/
theorem Decides.room_le (h : Decides s x consistent t) (hg : Grounded s.engine)
    (hdrained : s.engine.Drained) (hsome : s.engine.store.narrowestUnfixed = some x) :
    t.engine.store.room consistent ≤ 1 * s.engine.store.others x := by
  obtain ⟨hx, -⟩ := narrowestUnfixed_spec hsome
  refine Store.room_le Nat.one_pos hg.proper fun hc => ?_
  subst hc
  obtain ⟨hle, -, hp⟩ := h.narrowed hg hdrained hsome
  have hproper := (h.returns hg hdrained hsome).2.proper
  have hall : ∀ v ∈ (t.engine.store.set x).members, v = (s.engine.store.set x).lower := fun v hv => by
    simpa using hp _ (Store.admits_update_least hproper (ValueSet.mem_members.mp hv))
  refine Store.volume_le hle hx (Finset.card_le_one.mpr fun v hv v' hv' => ?_)
  rw [hall v hv, hall v' hv']

/-- The side of the refuted value has room for the other values. -/
theorem Refutes.room_le (h : Refutes s x u consistent w) (hg : Grounded s.engine)
    (hsu : Returns s u) (hsome : s.engine.store.narrowestUnfixed = some x) :
    w.engine.store.room consistent ≤
      ((s.engine.store.set x).members.card - 1) * s.engine.store.others x := by
  obtain ⟨hx, hunfixed⟩ := narrowestUnfixed_spec hsome
  have hset := hg.proper x hx
  refine Store.room_le (Nat.sub_pos_of_lt (hset.one_lt_card hunfixed)) hg.proper fun hc => ?_
  subst hc
  obtain ⟨hle, -, hp⟩ := h.narrowed hg hsu hsome
  have hproper := (h.restorable hg hsu hsome).2.proper
  refine Store.volume_le hle hx ?_
  rw [← Finset.card_erase_of_mem (ValueSet.mem_members.mpr hset.lower_mem)]
  refine Finset.card_le_card fun v hv => Finset.mem_erase.mpr ⟨?_, ?_⟩
  · simpa using hp _ (Store.admits_update_least hproper (ValueSet.mem_members.mp hv))
  · exact ValueSet.mem_members.mpr (Store.mem_of_le hle (ValueSet.mem_members.mp hv))

/-- The counts of two branches, the first of which is exhausted. -/
theorem Tallies.both {objective : Option (Direction × View)} {solutions' nodes' failures' : Nat}
    (h : Tallies objective solutions nodes failures .exhausted)
    (h' : Tallies objective solutions' nodes' failures' ending) :
    Tallies objective (solutions + solutions') (1 + nodes + nodes') (failures + failures') ending := by
  obtain ⟨hleaves, hnone⟩ := h
  cases ending with
  | exhausted =>
      obtain ⟨hleaves', hnone'⟩ := h'
      exact ⟨by omega, fun hobj => by rw [hnone hobj, hnone' hobj]⟩
  | satisfied =>
      obtain ⟨hobj, hone, hle⟩ := h'
      have := hnone hobj
      exact ⟨hobj, by omega, by omega⟩

/-- The counts of a search fit together, and there is room for all of its decisions. -/
theorem Explores.counts (h : Explores consistent s ending t) (hg : Grounded s.engine)
    (hdrained : s.engine.Drained) : ∃ solutions nodes failures,
      Counts s t solutions nodes failures ∧
      Tallies s.engine.objective solutions nodes failures ending ∧
      nodes < s.engine.store.room consistent := by
  induction h with
  | dead => exact ⟨0, 0, 1, ⟨rfl, rfl, rfl⟩, ⟨rfl, fun _ => rfl⟩, Nat.one_pos⟩
  | leaf _ hrun =>
      obtain ⟨hcounts, htallies⟩ := counts_accept hrun
      exact ⟨1, 0, 0, hcounts, htallies, Store.volume_pos hg.proper⟩
  | @left s t u x _ hsome hdecides _ ih =>
      obtain ⟨hx, hunfixed⟩ := narrowestUnfixed_spec hsome
      obtain ⟨hst, hgt⟩ := hdecides.returns hg hdrained hsome
      obtain ⟨solutions, nodes, failures, hcounts, htallies, hroom⟩ := ih hgt hst.drained
      rw [objective_eq_of_posted hst.posted_eq] at htallies
      obtain ⟨hobj, hone, hle⟩ := htallies
      have hroom := hroom.trans_le (hdecides.room_le hg hdrained hsome)
      have htwo := Nat.mul_le_mul_right (s.engine.store.others x)
        ((hg.proper x hx).one_lt_card hunfixed)
      refine ⟨_, _, _, hdecides.counts.trans hcounts, ⟨hobj, by omega, by omega⟩, ?_⟩
      rw [Store.room, if_pos rfl, Store.volume_eq hx]
      omega
  | @both s t u w z x _ _ ending hsome hdecides hleft hrefutes _ ih ih' =>
      obtain ⟨hx, hunfixed⟩ := narrowestUnfixed_spec hsome
      obtain ⟨hst, hgt⟩ := hdecides.returns hg hdrained hsome
      have hsu := hst.trans (hleft.restorable hgt hst.drained)
      obtain ⟨hsw, hgw⟩ := hrefutes.restorable hg hsu hsome
      obtain ⟨solutions, nodes, failures, hcounts, htallies, hroom⟩ := ih hgt hst.drained
      obtain ⟨solutions', nodes', failures', hcounts', htallies', hroom'⟩ := ih' hgw hsw.drained
      rw [objective_eq_of_posted hst.posted_eq] at htallies
      rw [objective_eq_of_posted hsw.posted_eq] at htallies'
      have hroom := hroom.trans_le (hdecides.room_le hg hdrained hsome)
      have hroom' := hroom'.trans_le (hrefutes.room_le hg hsu hsome)
      refine ⟨_, _, _, ((hdecides.counts.trans hcounts).trans hrefutes.counts).trans hcounts', ?_, ?_⟩
      · simpa using htallies.both htallies'
      -- the decision itself takes one of the two places that the branches leave free
      have hone := (hg.proper x hx).card_pos
      rw [Store.room, if_pos rfl, Store.volume_eq hx]
      generalize (s.engine.store.set x).members.card = card at *
      obtain ⟨k, rfl⟩ := Nat.exists_eq_succ_of_ne_zero hone.ne'
      rw [Nat.succ_sub_one] at hroom'
      rw [Nat.succ_mul]
      omega

end Search

/-! ## Solving -/

/-- The counts of a search from the root describe its tree. -/
theorem Searches.counts {outcome : Statistics} (h : Searches e outcome e') (hrest : Resting e) :
    (outcome.complete = false ↔ e.objective = none ∧ 0 < outcome.solutions) ∧
    (outcome.complete = true → outcome.solutions + outcome.failures = outcome.nodes + 1) ∧
    (outcome.complete = false → outcome.solutions = 1 ∧ outcome.failures ≤ outcome.nodes) ∧
    outcome.nodes < e.store.volume := by
  obtain @⟨consistent, e₁, ending, t, hprop, hexplores⟩ := h
  have hg := grounded_started hrest.toGrounded
  have hrests := hprop.rests hg (waiting_started hrest.drained)
  obtain ⟨solutions, nodes, failures, ⟨hsolutions, hnodes, hfailures⟩, htallies, hroom⟩ :=
    hexplores.counts (hrests.grounded hg) hrests.drained
  have hobj : e₁.objective = e.objective :=
    objective_eq_of_posted (hrests.posted_eq.trans (started_posted e))
  have hlt : nodes < e.store.volume := by
    have hle := hrests.yields.le
    rw [started_store] at hle
    refine hroom.trans_le ?_
    cases consistent with
    | true => exact Store.volume_mono hle
    | false => exact Store.volume_pos hrest.proper
  simp only [hobj] at htallies
  simp only [Nat.zero_add] at hsolutions hnodes hfailures
  simp only [hsolutions, hnodes, hfailures]
  cases ending with
  | exhausted =>
      obtain ⟨hleaves, hnone⟩ := htallies
      refine ⟨⟨nofun, fun ⟨hobj, hpos⟩ => ?_⟩, fun _ => hleaves, nofun, hlt⟩
      exact absurd (hnone hobj) hpos.ne'
  | satisfied =>
      obtain ⟨hnone, hone, hle⟩ := htallies
      exact ⟨⟨fun _ => ⟨hnone, hone ▸ Nat.one_pos⟩, fun _ => rfl⟩, nofun, fun _ => ⟨hone, hle⟩, hlt⟩

/-- At any point of a history that is not infeasible, solving runs to the end, unless a linear
equality with `2 ^ 31` terms or more makes it overflow. Its outcome is complete unless it has found
a solution and there is no objective. A complete search has met one leaf more than it has made
decisions, each of them a solution or a dead end; another one has found a single solution, and no
more dead ends than it has made decisions. And it has made fewer decisions than there were ways to
choose a value for each variable. -/
theorem solve_counts_tree {calls : List Call} (hcalls : Usable {} calls)
    (hrun : history calls {} = .ok () e) (hfeasible : e.infeasible = false) :
    ((∃ outcome e', Running.solve e = .ok outcome e') ∨
      (∃ e', Running.solve e = .error .overflow e') ∧ ¬ ∀ c ∈ calls, c.Brief) ∧
    ∀ outcome e', Running.solve e = .ok outcome e' → Searches e.forgetful outcome e' ∧
      (outcome.complete = false ↔ e.objective = none ∧ 0 < outcome.solutions) ∧
      (outcome.complete = true → outcome.solutions + outcome.failures = outcome.nodes + 1) ∧
      (outcome.complete = false → outcome.solutions = 1 ∧ outcome.failures ≤ outcome.nodes) ∧
      outcome.nodes < e.store.volume := by
  have hcalm := calmed_history resting_fresh rfl hcalls
  rw [hrun] at hcalm
  obtain ⟨hrest, -, hbounded⟩ := hcalm
  have hsearches := searches_search hrest.forgetful
  rw [solve_eq, hfeasible, if_neg Bool.false_ne_true]
  constructor
  · match Running.search e.forgetful, hsearches with
    | .ok outcome e', _ => exact .inl ⟨outcome, e', rfl⟩
    | .error f e', ⟨hf, hlong⟩ =>
      subst hf
      exact .inr ⟨⟨e', rfl⟩, fun hbrief => hlong (hbounded hbrief fun p hp => by simp at hp)⟩
  · intro outcome e' hsolve
    rw [hsolve] at hsearches
    exact ⟨hsearches, hsearches.counts hrest.forgetful⟩

/-- Two different numbers up to 2. -/
def differentPair : List Call :=
  [.request (.interval 0 2 "x"), .request (.interval 0 2 "y"),
    .request (.rule (.notEqual (.ofVar 0) (.ofVar 1)) none)]

/-- Fewer than nine decisions lead to the first pair. -/
theorem solve_counts_tree_differentPair : ∃ e outcome e', history differentPair {} = .ok () e ∧
    Running.solve e = .ok outcome e' ∧ outcome.nodes < e.store.volume := by
  have husable : Usable {} differentPair := by
    refine ⟨⟨by decide, by decide⟩, ⟨by decide, by decide⟩, ?_, trivial⟩
    intro p hp v hv x hx
    obtain rfl := List.mem_singleton.mp hp
    rcases List.mem_pair.mp hv with rfl | rfl <;> obtain rfl := Option.some.inj hx <;> decide
  obtain ⟨e, hrun, hfeasible⟩ : ∃ e, history differentPair {} = .ok () e ∧ e.infeasible = false :=
    ⟨_, rfl, rfl⟩
  obtain ⟨hends, hcounts⟩ := solve_counts_tree husable hrun hfeasible
  have hbrief : ∀ c ∈ differentPair, c.Brief := by
    intro c hc
    simp only [differentPair, List.mem_cons, List.not_mem_nil, or_false] at hc
    rcases hc with rfl | rfl | rfl <;> trivial
  obtain ⟨outcome, e', hsolve⟩ := hends.resolve_right fun hfail => hfail.2 hbrief
  exact ⟨e, outcome, e', hrun, hsolve, (hcounts outcome e' hsolve).2.2.2.2⟩

end FiniteDomain.Engine
