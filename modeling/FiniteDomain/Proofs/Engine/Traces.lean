import FiniteDomain.Proofs.Engine.Histories

/-!
# A search leaves no trace

Whatever calls came before, the engine is at rest between them: every way out of posting and of
searching leaves nothing waiting and no change noted. One more search then gives back all but
the solution and the journal, so nothing that is seen of the engine afterwards depends on it.
-/

namespace FiniteDomain.Engine

open Narrowing

variable {e e' e'' : Engine} {declared : Store} {p : Propagator} {r : Request} {calls : List Call}

/-! ## Usable calls -/

/-- Values of variables have 32 bits, and views read variables that were created before. -/
def Request.Usable (declared : Store) : Request → Prop
  | boolean _ => True
  | interval lower upper _ => word32.Fits lower ∧ word32.Fits upper
  | oneOf values _ => ∀ value ∈ values, word32.Fits value
  | objective _ v => v.Created declared
  | r => ∀ p ∈ r.posts, p.Created declared

/-- A linear equality has fewer than `2 ^ 31` terms, and its numbers have 64 bits. -/
def Request.Brief : Request → Prop
  | rule r _ => r.Brief
  | linear terms coefficients constant => terms.length < 2 ^ 31 ∧ word64.Fits constant ∧
    (∀ c ∈ coefficients, word64.Fits c) ∧ ∀ c, View.constant c ∈ terms → word64.Fits c
  | _ => True

namespace Call

/-- A request is usable; a search always is. -/
def Usable (declared : Store) : Call → Prop
  | request r => r.Usable declared
  | solve => True

/-- Linear equalities are not too long. -/
def Brief : Call → Prop
  | request r => r.Brief
  | solve => True

/-- The store of the created variables before any value is lost. -/
def declare (declared : Store) : Call → Store
  | request r => r.declare declared
  | solve => declared

end Call

/-- Every call is usable with the variables created before it. -/
def Usable : Store → List Call → Prop
  | _, [] => True
  | declared, c :: cs => c.Usable declared ∧ Usable (c.declare declared) cs

theorem Request.bounded_posts (h : r.Brief) : ∀ p ∈ r.posts, p.Bounded := by
  cases r with
  | rule r condition =>
      intro p hp
      obtain rfl := List.mem_singleton.mp hp
      exact Rule.Brief.bounded h
  | implication antecedent consequent condition =>
      intro p hp
      obtain rfl := List.mem_singleton.mp hp
      trivial
  | linear terms coefficients constant =>
      obtain ⟨hlength, hconstant, hcoefficients, hconstants⟩ := h
      intro p hp
      simp only [posts] at hp
      split at hp
      · cases hp
      · obtain rfl := List.mem_singleton.mp hp
        have hmem : ∀ t ∈ (coefficients.zip terms).filter (·.1 != 0),
            t.1 ∈ coefficients ∧ t.2 ∈ terms := fun t ht =>
          List.of_mem_zip (List.mem_filter.mp ht).1
        refine Linear.Brief.bounded ⟨hconstant, ?_, fun t ht => hcoefficients _ (hmem t ht).1,
          fun t ht c hc => hconstants c (hc ▸ (hmem t ht).2), fun t ht => ?_⟩
        · calc ((coefficients.zip terms).filter (·.1 != 0)).length
              ≤ (coefficients.zip terms).length := List.length_filter_le _ _
            _ ≤ terms.length := by simp
            _ < 2 ^ 31 := hlength
        · simpa using (List.mem_filter.mp ht).2
  | _ => simp [posts]

/-- What is usable has 32 bits, and reads variables that were created before. -/
theorem Request.usable_parts (hr : r.Usable declared) :
    r.Fits ∧ (∀ p ∈ r.posts, p.Created declared) ∧
      ∀ direction v, r.objective? = some (direction, v) → v.Created declared := by
  cases r with
  | boolean name => exact ⟨trivial, by simp [posts], by simp [objective?]⟩
  | interval lower upper name => exact ⟨hr, by simp [posts], by simp [objective?]⟩
  | oneOf values name => exact ⟨hr, by simp [posts], by simp [objective?]⟩
  | objective direction v =>
      refine ⟨trivial, by simp [posts], fun direction' v' hv => ?_⟩
      obtain ⟨-, rfl⟩ := Prod.mk.inj (Option.some.inj hv)
      exact hr
  | _ => exact ⟨trivial, hr, by simp [objective?]⟩

/-! ## Coming to rest -/

/-- A fresh engine is at rest. -/
theorem resting_fresh : Resting {} where
  proper := fun x hx => by simp [Store.numVariables] at hx
  created := by simp
  objective := by simp
  watchers_lt := by simp
  drained := rfl
  modified_eq := rfl

theorem grounded_enlisted (h : Grounded e) (hp : p.Created e.store) : Grounded (e.enlisted p) where
  proper := h.proper
  created := fun q hq => (mem_enlisted.mp hq).elim (h.created q) fun hq => hq ▸ hp
  objective := h.objective
  watchers_lt := watchers_lt_install p h.watchers_lt

/-- The terminating runs of a post: an infeasible engine ignores the propagator, any other one adds it,
and its loop ends. -/
inductive Enlists (p : Propagator) (e : Engine) : EStateM.Result Failure Engine Unit → Prop
  | ignored : e.infeasible = true → Enlists p e (.ok () (e.note (.ignored p.name)))
  | looped {r : EStateM.Result Failure Engine Unit} : e.infeasible = false →
      Loops (e.enlisted p) r → Enlists p e (concluded p r)

/-- Posting is a terminating run. -/
theorem enlists_post (h : Resting e) (hp : p.Created e.store) : Enlists p e (Running.post p e) := by
  rw [post_eq]
  split
  · next hinf => exact .ignored hinf
  · next hinf =>
    exact .looped (Bool.eq_false_iff.mpr hinf)
      (loops_propagate (grounded_enlisted h.toGrounded hp) (waiting_enlisted h.drained))

/-- What a call leaves behind: an engine at rest with so many variables, and with a long linear
equality only if there was one before or the call brought it. Nothing else overflows. -/
def Calmed {α : Type} (e : Engine) (size : Nat) (brief : Prop) :
    EStateM.Result Failure Engine α → Prop
  | .ok _ e' => Resting e' ∧ e'.store.numVariables = size ∧ (brief → Bounded e → Bounded e')
  | .error f _ => f = .overflow ∧ ¬ (Bounded e ∧ brief)

theorem Calmed.weaken {α : Type} {size : Nat} {brief brief' : Prop}
    {r : EStateM.Result Failure Engine α} (h : Calmed e size brief r) (himp : brief' → brief) :
    Calmed e size brief' r := by
  match r, h with
  | .ok _ e', ⟨hrest, hsize, hbrief⟩ => exact ⟨hrest, hsize, hbrief ∘ himp⟩
  | .error f e', ⟨hf, hlong⟩ => exact ⟨hf, fun hall => hlong ⟨hall.1, himp hall.2⟩⟩

/-- Posting comes to rest. -/
theorem calmed_post (h : Resting e) (hp : p.Created e.store) :
    Calmed e e.store.numVariables p.Bounded (Running.post p e) := by
  have hg := grounded_enlisted h.toGrounded hp
  have hbrief : ∀ {e'}, e'.propagators = (e.enlisted p).propagators →
      p.Bounded → Bounded e → Bounded e' := fun heq hp he q hq =>
    (mem_enlisted.mp (heq ▸ hq)).elim (he q) fun hq => hq ▸ hp
  rw [post_eq]
  by_cases hinf : e.infeasible = true
  · rw [if_pos hinf]
    exact ⟨⟨h.of_posted h.proper rfl rfl, h.drained, h.modified_eq⟩, rfl, fun _ => id⟩
  rw [if_neg hinf]
  match Running.propagate (e.enlisted p), rested_propagate hg (waiting_enlisted h.drained) with
  | .ok _ e', hr => exact ⟨hr.resting hg, hr.yields.le.1, hbrief hr.propagators_eq⟩
  | .error .conflict e', hr =>
    have hg' := hr.grounded hg
    exact ⟨⟨⟨hg'.proper, hg'.created, hg'.objective, hg'.watchers_lt⟩, hr.drained,
      hr.modified_eq⟩, hr.yields.le.1, hbrief hr.propagators_eq⟩
  | .error .overflow e', hlong =>
    exact ⟨rfl, fun hall => hlong fun q hq =>
      (mem_enlisted.mp hq).elim (hall.1 q) fun hq => hq ▸ hall.2⟩

/-! ## Tightening -/

/-- The valuation satisfies everything that was posted, and no contradiction was found. -/
def IsModel (e : Engine) (a : Valuation) : Prop := e.infeasible = false ∧ e.IsSolution a

/-- Everything that was posted and found still stands. -/
structure Tightens (e e' : Engine) : Prop where
  infeasible : e.infeasible = true → e'.infeasible = true
  propagators : ∀ p ∈ e.propagators, p ∈ e'.propagators
  admits : ∀ a, e'.store.Admits a → e.store.Admits a

theorem Tightens.refl (e : Engine) : Tightens e e := ⟨id, fun _ => id, fun _ => id⟩

theorem Tightens.trans (h : Tightens e e') (h' : Tightens e' e'') : Tightens e e'' where
  infeasible := h'.infeasible ∘ h.infeasible
  propagators := fun p hp => h'.propagators p (h.propagators p hp)
  admits := fun a ha => h.admits a (h'.admits a ha)

/-- No model is gained. -/
theorem Tightens.isModel {a : Valuation} (h : Tightens e e') (ha : IsModel e' a) : IsModel e a where
  left := by
    cases hinf : e.infeasible with
    | false => rfl
    | true => exact absurd (h.infeasible hinf) (by simp [ha.1])
  right := ⟨h.admits a ha.2.1, fun p hp => ha.2.2 p (h.propagators p hp)⟩

theorem Follows.tightens (h : Follows e e') : Tightens e e' where
  infeasible := (congrArg infeasible h.posted_eq).trans
  propagators := fun _ hp => h.propagators_eq ▸ hp
  admits := fun _ => h.yields.admits

/-- A propagator is posted, or something has been found infeasible. -/
theorem tightens_post (h : Resting e) (hp : p.Created e.store)
    (hrun : Running.post p e = .ok () e') :
    Tightens e e' ∧ (e'.infeasible = true ∨ p ∈ e'.propagators) := by
  have hg := grounded_enlisted h.toGrounded hp
  have henlist : Tightens e (e.enlisted p) :=
    ⟨id, fun q hq => mem_enlisted.mpr (.inl hq), fun _ => id⟩
  have hposted : p ∈ (e.enlisted p).propagators := mem_enlisted.mpr (.inr rfl)
  rw [post_eq] at hrun
  by_cases hinf : e.infeasible = true
  · rw [if_pos hinf] at hrun
    cases hrun
    exact ⟨⟨id, fun _ => id, fun _ => id⟩, .inl hinf⟩
  rw [if_neg hinf] at hrun
  match Running.propagate (e.enlisted p), rested_propagate hg (waiting_enlisted h.drained), hrun with
  | .ok _ e₁, hr, hrun =>
    cases hrun
    have htight := hr.toFollows.tightens
    exact ⟨henlist.trans htight, .inr (htight.propagators p hposted)⟩
  | .error .conflict e₁, hr, hrun =>
    cases hrun
    have htight := henlist.trans hr.toFollows.tightens
    exact ⟨⟨fun _ => rfl, htight.propagators, htight.admits⟩, .inl rfl⟩

/-! ## Calls -/

theorem resting_addVariable {d : ValueSet} (h : Resting e) (hd : d.Proper) (name : String) :
    Resting (e.addVariable d name).2 := by
  have hle : e.store.numVariables ≤ (e.store.addVariable d).numVariables := by simp
  refine ⟨⟨Store.proper_addVariable h.proper hd, fun p hp => (h.created p hp).mono hle,
    fun direction v hv => (h.objective direction v hv).mono hle, fun x i hi => ?_⟩,
    h.drained, h.modified_eq⟩
  rw [show (e.addVariable d name).2.watchers = e.watchers.push [] from rfl, getD_push_nil] at hi
  exact h.watchers_lt x i hi

/-- An objective brings nothing else. -/
theorem resting_setObjective {v : View} (h : Resting e) (hv : v.Created e.store)
    (direction : Direction) : Resting (e.setObjective direction v) := by
  refine ⟨⟨h.proper, h.created, fun direction' v' hv' => ?_, h.watchers_lt⟩, h.drained,
    h.modified_eq⟩
  obtain ⟨-, rfl⟩ := Prod.mk.inj (Option.some.inj hv')
  exact hv

/-- Solving comes to rest. -/
theorem calmed_solve (h : Resting e) : Calmed e e.store.numVariables True (Running.solve e) := by
  match Running.solve e, restored_solve h with
  | .ok outcome e', ⟨hstore, hposted, hdrained⟩ =>
    exact ⟨⟨h.of_posted (hstore ▸ h.proper) (by rw [hstore]) hposted, hdrained,
      hstore ▸ h.modified_eq⟩, congrArg Store.numVariables hstore,
      fun _ => (bounded_iff_of_posted hposted).mpr⟩
  | .error f e', ⟨hf, hlong⟩ => exact ⟨hf, fun hall => hlong hall.1⟩

theorem tightens_solve {outcome : Statistics} (h : Resting e)
    (hrun : Running.solve e = .ok outcome e') : Tightens e e' := by
  have hrestored := restored_solve h
  rw [hrun] at hrestored
  obtain ⟨hstore, hposted, -⟩ := hrestored
  exact ⟨(congrArg infeasible hposted).trans, fun p hp => (congrArg propagators hposted).symm ▸ hp,
    fun a ha => hstore ▸ ha⟩

/-- A new variable is all that a creation brings. -/
theorem calmed_addVariable {d : ValueSet} {brief : Prop} (h : Resting e)
    (hn : e.store.numVariables = declared.numVariables) (hd : d.Proper) (name : String) :
    Calmed e (declared.addVariable d).numVariables brief (.ok () (e.addVariable d name).2) := by
  refine ⟨resting_addVariable h hd name, ?_, fun _ => id⟩
  rw [Store.numVariables_addVariable, ← hn]
  exact Store.numVariables_addVariable

/-- A usable request comes to rest. -/
theorem calmed_request (h : Resting e) (hn : e.store.numVariables = declared.numVariables)
    (hr : r.Usable declared) :
    Calmed e (r.declare declared).numVariables r.Brief (r.perform e) := by
  obtain ⟨hfits, hcreated, hobjective⟩ := Request.usable_parts hr
  have hbounded := Request.bounded_posts (r := r)
  rw [Request.posts_eq] at hcreated hbounded
  rw [Request.objective?_eq] at hobjective
  rw [Request.perform_eq, Request.declare_eq]
  cases heffect : r.effect with
  | nothing => exact ⟨h, hn, fun _ => id⟩
  | create d name => exact calmed_addVariable h hn (Request.proper_of_effect hfits heffect) name
  | post p =>
      rw [heffect] at hcreated hbounded
      have hp : p ∈ (Request.Effect.post p).posts := List.mem_singleton_self p
      have hcalm := calmed_post h ((hcreated p hp).mono hn.ge)
      exact hn ▸ hcalm.weaken fun hbrief => hbounded hbrief p hp
  | aim direction v =>
      rw [heffect] at hobjective
      have hv := (hobjective direction v rfl).mono hn.ge
      exact ⟨resting_setObjective h hv direction, hn, fun _ => id⟩

/-- A usable call comes to rest. -/
theorem calmed_call {c : Call} (h : Resting e) (hn : e.store.numVariables = declared.numVariables)
    (hc : c.Usable declared) :
    Calmed e (c.declare declared).numVariables c.Brief (c.perform e) := by
  cases c with
  | request r =>
      have hrequest := calmed_request h hn hc
      rw [request_perform]
      match r.perform e, hrequest with
      | .ok _ e', hcalm => exact hcalm
      | .error f e', hfail => exact hfail
  | solve =>
      rw [solve_perform]
      match Running.solve e, calmed_solve h with
      | .ok outcome e', hcalm => exact ⟨hcalm.1, hcalm.2.1.trans hn, hcalm.2.2⟩
      | .error f e', hfail => exact hfail

theorem history_cons (c : Call) (cs : List Call) (e : Engine) :
    history (c :: cs) e = match c.perform e with
      | .ok _ e' => history cs e'
      | .error f e' => .error f e' := by
  have hdiscard : ∀ e, (discard c.perform : Running Unit) e = match c.perform e with
      | .ok _ e' => .ok () e'
      | .error f e' => .error f e' := by
    intro e
    change EStateM.map (fun _ => ()) c.perform e = _
    rw [EStateM.map]
    cases c.perform e <;> rfl
  simp only [history, List.forM_eq_forM, List.forM_cons, bind, EStateM.bind, hdiscard]
  cases c.perform e <;> rfl

/-- Every usable history comes to rest. -/
theorem calmed_history (h : Resting e) (hn : e.store.numVariables = declared.numVariables)
    (hcalls : Usable declared calls) :
    Calmed e (calls.foldl (fun declared c => c.declare declared) declared).numVariables
      (∀ c ∈ calls, c.Brief) (history calls e) := by
  induction calls generalizing e declared with
  | nil => exact ⟨h, hn, fun _ => id⟩
  | cons c cs ih =>
      simp only [List.forall_mem_cons]
      rw [history_cons]
      match c.perform e, calmed_call h hn hcalls.1 with
      | .error f e', ⟨hf, hlong⟩ => exact ⟨hf, fun hall => hlong ⟨hall.1, hall.2.1⟩⟩
      | .ok _ e', ⟨hrest, hn', hbrief⟩ =>
        have hrest' := ih hrest hn' hcalls.2
        simp only
        match history cs e', hrest' with
        | .error f e'', ⟨hf, hlong⟩ =>
          exact ⟨hf, fun hall => hlong ⟨hbrief hall.2.1 hall.1, hall.2.2⟩⟩
        | .ok _ e'', ⟨hrest', hsize, hbrief'⟩ =>
          exact ⟨hrest', hsize, fun hall he => hbrief' hall.2 (hbrief hall.1 he)⟩

/-! ## One more search -/

/-- A search leaves an engine behind that differs in its solution and its journal alone. -/
theorem alike_of_restored (hstore : e'.store = e.store) (hposted : e'.posted = e.posted)
    (hqueue : e'.toQueue = e.toQueue) : Alike false e e' := by
  have hsplit : ∀ e : Engine, e.erase false = (e.posted.withStore e.store).withQueue e.toQueue :=
    fun _ => rfl
  rw [Alike, hsplit, hsplit, hstore, hposted, hqueue]

/-- One more search at any point of a history changes nothing that is seen later: not the bounds
and values of any view, not the objective, and not the outcome or the solution of any later
search, whatever the search has found. It always ends, unless a linear equality with `2 ^ 31`
terms or more makes it overflow. -/
theorem solve_leaves_no_trace {before : List Call} (hbefore : Usable {} before) :
    ((∀ c ∈ before, c.Brief) →
      ∃ e outcome e', history before {} = .ok () e ∧ Running.solve e = .ok outcome e') ∧
    ∀ e outcome e', history before {} = .ok () e → Running.solve e = .ok outcome e' →
      e'.sight = e.sight ∧ ∀ after, reports after e' = reports after e := by
  have hhistory := calmed_history resting_fresh rfl hbefore
  have hfresh : Bounded {} := fun p hp => by simp at hp
  constructor
  · intro hbrief
    match hrun : history before {}, hhistory with
    | .error f e, ⟨_, hlong⟩ => exact absurd ⟨hfresh, hbrief⟩ hlong
    | .ok _ e, ⟨hrest, _, he⟩ =>
      match hsolve : Running.solve e, restored_solve hrest with
      | .error f e', ⟨_, hlong⟩ => exact absurd (he hbrief hfresh) hlong
      | .ok outcome e', _ => exact ⟨e, outcome, e', rfl, hsolve⟩
  · intro e outcome e' hrun hsolve
    rw [hrun] at hhistory
    have hrestored := restored_solve hhistory.1
    rw [hsolve] at hrestored
    obtain ⟨hstore, hposted, hdrained⟩ := hrestored
    -- both engines have nothing waiting, and unset marks for the same propagators
    have hqueue : e'.toQueue = e.toQueue := by
      rw [hdrained, hhistory.1.drained, propagators_eq_of_posted hposted]
    have halike := alike_of_restored hstore hposted hqueue
    exact ⟨halike.sight_eq, fun after => halike.reports_eq after⟩

/-- Two different numbers up to 3, searched for once, then with the first one to be minimised. -/
def searchedPair : List Call :=
  [.request (.interval 0 3 "x"), .request (.interval 0 3 "y"),
    .request (.rule (.notEqual (.ofVar 0) (.ofVar 1)) none), .solve,
    .request (.objective .minimise (.ofVar 0))]

/-- Searching for the smallest number twice gives the same answer. -/
theorem solve_leaves_no_trace_searchedPair : ∃ e outcome e', history searchedPair {} = .ok () e ∧
    Running.solve e = .ok outcome e' ∧ reports [.solve] e' = reports [.solve] e := by
  have husable : Usable {} searchedPair := by
    refine ⟨⟨by decide, by decide⟩, ⟨by decide, by decide⟩, ?_, trivial, ?_, trivial⟩
    · intro p hp v hv x hx
      obtain rfl := List.mem_singleton.mp hp
      rcases List.mem_pair.mp hv with rfl | rfl <;> obtain rfl := Option.some.inj hx <;> decide
    · intro x hx
      obtain rfl := Option.some.inj hx
      decide
  obtain ⟨hends, hsame⟩ := solve_leaves_no_trace husable
  obtain ⟨e, outcome, e', hrun, hsolve⟩ := hends (by
    intro c hc
    simp only [searchedPair, List.mem_cons, List.not_mem_nil, or_false] at hc
    rcases hc with rfl | rfl | rfl | rfl | rfl <;> trivial)
  exact ⟨e, outcome, e', hrun, hsolve, (hsame e outcome e' hrun hsolve).2 _⟩

end FiniteDomain.Engine
