import FiniteDomain.Engine.Posting
import FiniteDomain.Proofs.Engine.Solving

/-!
# Posting

An engine keeps track of the variables that were declared and of the propagators that were
posted. Its store may have lost values, but as long as all propagators are small none that a
solution needs. Once it is infeasible it ignores what is posted, but then what it has installed
already has no solution. All of this needs no more than that propagators read their views as they
are; if the views are exact, they stay so.
-/

namespace FiniteDomain.Engine

variable {e e' : Engine} {declared : Store} {posted : List Propagator} {p : Propagator}
  {a : Valuation} {d : ValueSet} {i j : Nat} {x : VarIndex}

/-- What an engine knows about the declared variables and the posted propagators. -/
structure Tracks (e : Engine) (declared : Store) (posted : List Propagator) : Prop where
  idle : Idle e
  proper : declared.Proper
  le : e.store ≤ declared
  exact : ∀ p ∈ posted, p.Exact declared
  objective : ∀ direction v, e.objective = some (direction, v) → v.Exact declared
  installed : ∀ p ∈ e.propagators, p ∈ posted
  complete : e.infeasible = false → ∀ p ∈ posted, p ∈ e.propagators
  spares : (∀ p ∈ posted, p.Small declared) → ∀ a, declared.Admits a →
    (∀ p ∈ e.propagators, p.Holds a) → e.store.Admits a ∧ e.infeasible = false

/-- What an engine knows if its propagators read their views as they are. -/
structure Recalls (e : Engine) (declared : Store) (posted : List Propagator) : Prop where
  quiet : Quiet e
  proper : declared.Proper
  le : e.store ≤ declared
  readable : ∀ p ∈ posted, p.Readable declared
  objective : ∀ direction v, e.objective = some (direction, v) → v.Exact declared
  installed : ∀ p ∈ e.propagators, p ∈ posted
  complete : e.infeasible = false → ∀ p ∈ posted, p ∈ e.propagators
  spares : (∀ p ∈ posted, p.Small declared) → ∀ a, declared.Admits a →
    (∀ p ∈ e.propagators, p.Holds a) → e.store.Admits a ∧ e.infeasible = false

theorem Tracks.recalls (h : Tracks e declared posted) : Recalls e declared posted where
  quiet := h.idle.quiet
  proper := h.proper
  le := h.le
  readable := fun p hp => (h.exact p hp).readable
  objective := h.objective
  installed := h.installed
  complete := h.complete
  spares := h.spares

/-- With exact views the engine keeps track. -/
theorem Recalls.tracks (h : Recalls e declared posted) (hexact : ∀ p ∈ posted, p.Exact declared) :
    Tracks e declared posted where
  idle := ⟨h.quiet.legible.wellFormed fun p hp => (hexact p (h.installed p hp)).mono h.le,
    h.quiet.drained, h.quiet.modified_eq⟩
  proper := h.proper
  le := h.le
  exact := hexact
  objective := h.objective
  installed := h.installed
  complete := h.complete
  spares := h.spares

/-- A valuation of the declared variables under which every posted propagator holds. -/
def Solves (declared : Store) (posted : List Propagator) (a : Valuation) : Prop :=
  declared.Admits a ∧ ∀ p ∈ posted, p.Holds a

/-- A new variable has no watchers yet. -/
theorem getD_push_nil (watchers : Array (List Nat)) (x : VarIndex) :
    (watchers.push []).getD x [] = watchers.getD x [] := by
  simp only [Array.getD_eq_getD_getElem?, Array.getElem?_push]
  split
  · next h => simp [h]
  · rfl

namespace Recalls

/-- Small propagators stay small in the store of the engine. -/
theorem small (h : Recalls e declared posted) (hsmall : ∀ p ∈ posted, p.Small declared) :
    ∀ p ∈ e.propagators, p.Small e.store := fun p hp =>
  (h.readable p (h.installed p hp)).small_mono (hsmall p (h.installed p hp)) h.proper
    h.quiet.legible.proper h.le

/-- A solution is needed by the engine, which is then not infeasible. -/
theorem needs (h : Recalls e declared posted) (hsmall : ∀ p ∈ posted, p.Small declared)
    (ha : Solves declared posted a) : Needs e a ∧ e.infeasible = false := by
  have hholds : ∀ p ∈ e.propagators, p.Holds a := fun p hp => ha.2 p (h.installed p hp)
  obtain ⟨hadmits, hfeasible⟩ := h.spares hsmall a ha.1 hholds
  exact ⟨⟨hadmits, fun p hp => ⟨h.small hsmall p hp, hholds p hp⟩⟩, hfeasible⟩

/-- A fresh engine. -/
theorem fresh : Recalls {} {} [] where
  quiet := ⟨⟨fun x hx => by simp [Store.numVariables] at hx, by simp, by simp, rfl, by simp, by simp⟩,
    rfl, rfl⟩
  proper := fun x hx => by simp [Store.numVariables] at hx
  le := ⟨rfl, fun _ _ hv => hv⟩
  readable := by simp
  objective := by simp
  installed := by simp
  complete := by simp
  spares := fun _ a ha _ => ⟨ha, rfl⟩

/-- Setting the objective. -/
theorem setObjective (h : Recalls e declared posted) (direction : Direction) {v : View}
    (hv : v.Exact declared) : Recalls (e.setObjective direction v) declared posted where
  quiet := by
    obtain ⟨⟨hproper, hreadable, -, hsize, hwatched, hlt⟩, hdrained, hmodified⟩ := h.quiet
    refine ⟨⟨hproper, hreadable, fun direction' v' hobj => ?_, hsize, hwatched, hlt⟩, hdrained, hmodified⟩
    obtain ⟨-, rfl⟩ := Prod.mk.inj (Option.some.inj hobj)
    exact hv.mono h.le
  proper := h.proper
  le := h.le
  readable := h.readable
  objective := fun direction' v' hobj => by
    obtain ⟨-, rfl⟩ := Prod.mk.inj (Option.some.inj hobj)
    exact hv
  installed := h.installed
  complete := h.complete
  spares := h.spares

/-- Creating a variable. -/
theorem addVariable (h : Recalls e declared posted) (hd : d.Proper) (name : String) :
    Recalls (e.addVariable d name).2 (declared.addVariable d) posted := by
  have hext := e.store.extends_addVariable d
  have hext' := declared.extends_addVariable d
  refine ⟨⟨⟨?_, ?_, ?_, ?_, ?_, ?_⟩, h.quiet.drained, h.quiet.modified_eq⟩, ?_, ?_, ?_, ?_,
    h.installed, h.complete, ?_⟩
  · exact Store.proper_addVariable h.quiet.legible.proper hd
  · exact fun p hp => (h.quiet.legible.readable p hp).extend hext
  · exact fun direction v hobj => (h.quiet.legible.objective direction v hobj).extend hext
  · have := h.quiet.legible.watchers_size
    simp only [Engine.addVariable, note, Array.size_push, Store.numVariables_addVariable, this]
  · intro i p hi v hv x hx
    have hmem := h.quiet.legible.watched i p hi v hv x hx
    rwa [← getD_push_nil] at hmem
  · intro x i hi
    rw [show (e.addVariable d name).2.watchers = e.watchers.push [] from rfl, getD_push_nil] at hi
    exact h.quiet.legible.watchers_lt x i hi
  · exact Store.proper_addVariable h.proper hd
  · exact Store.addVariable_le_addVariable h.le
  · exact fun p hp => (h.readable p hp).extend hext'
  · exact fun direction v hobj => (h.objective direction v hobj).extend hext'
  · intro hsmall a ha hholds
    rw [Store.admits_addVariable] at ha
    have hsmall' : ∀ p ∈ posted, p.Small declared := fun p hp =>
      ((h.readable p hp).small_extend_iff hext').mp (hsmall p hp)
    obtain ⟨hadmits, hfeasible⟩ := h.spares hsmall' a ha.1 hholds
    refine ⟨Store.admits_addVariable.mpr ⟨hadmits, ?_⟩, hfeasible⟩
    rw [Store.numVariables_eq_of_le h.le]
    exact ha.2

end Recalls

/-! ## Watching -/

theorem mem_addWatcher {watchers : List Nat} :
    i ∈ addWatcher watchers j ↔ i ∈ watchers ∨ i = j := by
  rw [addWatcher]
  split
  · next h =>
    simp only [List.contains_iff_mem] at h
    exact ⟨.inl, fun hi => hi.elim id fun hij => hij ▸ h⟩
  · simp

/-- Adds a propagator to the watchers of the variable that the view reads. -/
def watchView (j : Nat) (watchers : Array (List Nat)) (v : View) : Array (List Nat) :=
  match v.var? with
  | none => watchers
  | some x => watchers.modify x (addWatcher · j)

theorem size_watchView (j : Nat) (watchers : Array (List Nat)) (v : View) :
    (watchView j watchers v).size = watchers.size := by
  rw [watchView]
  split
  · rfl
  · exact Array.size_modify

theorem mem_watchView {watchers : Array (List Nat)} {v : View} (hx : x < watchers.size) :
    i ∈ (watchView j watchers v).getD x [] ↔
      i ∈ watchers.getD x [] ∨ i = j ∧ v.var? = some x := by
  rw [watchView]
  split
  · next h => simp [h]
  · next y h =>
    rw [h]
    by_cases hyx : y = x
    · subst hyx
      simp [Array.getElem_modify, hx, mem_addWatcher]
    · simp [Array.getElem_modify, hx, hyx]

theorem size_watch (watchers : Array (List Nat)) (j : Nat) (views : List View) :
    (watch watchers j views).size = watchers.size := by
  induction views generalizing watchers with
  | nil => rfl
  | cons v vs ih => exact (ih (watchView j watchers v)).trans (size_watchView j watchers v)

/-- A variable knows a propagator that reads it. -/
theorem mem_watch {watchers : Array (List Nat)} {views : List View} (hx : x < watchers.size) :
    i ∈ (watch watchers j views).getD x [] ↔
      i ∈ watchers.getD x [] ∨ i = j ∧ ∃ v ∈ views, v.var? = some x := by
  induction views generalizing watchers with
  | nil => simp [watch]
  | cons v vs ih =>
      have hcons : watch watchers j (v :: vs) = watch (watchView j watchers v) j vs := rfl
      rw [hcons, ih (by rwa [size_watchView]), mem_watchView hx]
      simp only [List.exists_mem_cons_iff]
      tauto

/-- The watchers stay propagators when one is installed. -/
theorem watchers_lt_install (p : Propagator)
    (h : ∀ x, ∀ i ∈ e.watchers.getD x [], i < e.propagators.size) :
    ∀ x, ∀ i ∈ (e.install p).watchers.getD x [], i < (e.install p).propagators.size := by
  intro x i hi
  have hsize : (e.install p).propagators.size = e.propagators.size + 1 := Array.size_push _
  by_cases hx : x < e.watchers.size
  · rcases (mem_watch hx).mp hi with hi | ⟨rfl, -⟩
    · have := h x i hi
      omega
    · omega
  · have hnone : (e.install p).watchers.getD x [] = [] := by
      have hx' : (e.install p).watchers.size ≤ x := (size_watch _ _ _).trans_le (not_lt.mp hx)
      simp [Array.getElem?_eq_none hx']
    rw [hnone] at hi
    cases hi

/-- Installing a propagator that reads its views as they are keeps the engine legible. -/
theorem legible_install (hw : e.Legible) (hp : p.Readable e.store) : (e.install p).Legible where
  proper := hw.proper
  readable := fun q hq => by
    rcases Array.mem_push.mp hq with hq | rfl
    · exact hw.readable q hq
    · exact hp
  objective := hw.objective
  watchers_size := (size_watch _ _ _).trans hw.watchers_size
  watched := fun i q hi v hv x hx => by
    have hi : (e.propagators.push p)[i]? = some q := hi
    rw [Array.getElem?_push] at hi
    have hbound : ∀ q : Propagator, q.Readable e.store → v ∈ q.views → x < e.watchers.size :=
      fun q hq hv => hw.watchers_size ▸ hq.created v hv x hx
    split at hi
    · next hsize =>
      obtain rfl := Option.some.inj hi
      exact (mem_watch (hbound p hp hv)).mpr (.inr ⟨hsize, v, hv, hx⟩)
    · refine (mem_watch (hbound q (hw.readable q (Array.mem_of_getElem? hi)) hv)).mpr (.inl ?_)
      exact hw.watched i q hi v hv x hx
  watchers_lt := watchers_lt_install p hw.watchers_lt

/-! ## Posting a propagator -/

/-- The engine in which a new propagator is about to run. -/
def enlisted (e : Engine) (p : Propagator) : Engine :=
  ((e.install p).note (.posted p.name)).schedule e.propagators.size

/-- The engine after a propagator was found infeasible at the root. -/
def refuted (e : Engine) (p : Propagator) : Engine :=
  { e.note (.infeasible p.name) with infeasible := true }

/-- What a post makes of the outcome of its loop: after a conflict the engine is infeasible. -/
def concluded (p : Propagator) :
    EStateM.Result Failure Engine Unit → EStateM.Result Failure Engine Unit
  | .ok _ e => .ok () e
  | .error .conflict e => .ok () (e.refuted p)
  | .error .overflow e => .error .overflow e

theorem post_eq (e : Engine) (p : Propagator) :
    Running.post p e =
      if e.infeasible then .ok () (e.note (.ignored p.name))
      else concluded p (Running.propagate (e.enlisted p)) := by
  simp only [Running.post, bind, EStateM.bind, get_apply]
  split
  · rfl
  · simp only [EStateM.bind, modify_apply, enlisted, Running.succeeds]
    rcases Running.propagate _ with ⟨_, e'⟩ | ⟨_ | _, e'⟩ <;> rfl

theorem legible_enlisted (hw : e.Legible) (hp : p.Readable e.store) : (e.enlisted p).Legible :=
  (legible_install hw hp).of_sets rfl rfl

/-- A new propagator is scheduled, for it is not marked yet. -/
theorem Drained.enlisted (h : e.Drained) :
    (e.enlisted p).Waiting ∧ e.propagators.size ∈ (e.enlisted p).agenda := by
  have hqueue : ((e.install p).note (.posted p.name)).toQueue = .idle (e.propagators.size + 1) := by
    rw [← Queue.idle_push, ← h]
    exact congrArg (Queue.mk · _) h.agenda_eq
  have hvalid := hqueue ▸ Queue.valid_idle (e.propagators.size + 1)
  refine ⟨?_, hvalid.mem_enqueue.mpr (.inr rfl)⟩
  rw [Waiting, show (e.enlisted p).propagators.size = e.propagators.size + 1 from Array.size_push _]
  exact hvalid.enqueue (Nat.lt_succ_self _)

theorem waiting_enlisted (h : e.Drained) : (e.enlisted p).Waiting := h.enlisted.1

theorem mem_enlisted {q : Propagator} : q ∈ (e.enlisted p).propagators ↔ q ∈ e.propagators ∨ q = p :=
  Array.mem_push

theorem wellFormed_enlisted (hw : e.WellFormed) (hp : p.Exact e.store) : (e.enlisted p).WellFormed :=
  (legible_enlisted hw.legible hp.readable).wellFormed fun q hq =>
    (mem_enlisted.mp hq).elim (hw.exact q) fun hq => hq ▸ hp

namespace Recalls

theorem readable_append (h : Recalls e declared posted) (hp : p.Readable declared) :
    ∀ q ∈ posted ++ [p], q.Readable declared := fun q hq =>
  (List.mem_append.mp hq).elim (h.readable q) fun hq => List.mem_singleton.mp hq ▸ hp

theorem mem_of_enlisted {q : Propagator} (h : Recalls e declared posted)
    (hq : q ∈ (e.enlisted p).propagators) : q ∈ posted ++ [p] :=
  List.mem_append.mpr <| (mem_enlisted.mp hq).elim (fun hq => .inl (h.installed q hq))
    fun hq => .inr (List.mem_singleton.mpr hq)

theorem small_enlisted (h : Recalls e declared posted) (hp : p.Readable declared)
    (hsmall : ∀ q ∈ posted ++ [p], q.Small declared) {q : Propagator}
    (hq : q ∈ (e.enlisted p).propagators) : q.Small e.store :=
  (h.readable_append hp q (h.mem_of_enlisted hq)).small_mono (hsmall q (h.mem_of_enlisted hq))
    h.proper h.quiet.legible.proper h.le

/-- A solution is needed by the engine with a new propagator. -/
theorem needs_enlisted (h : Recalls e declared posted) (hp : p.Readable declared)
    (hsmall : ∀ q ∈ posted ++ [p], q.Small declared) (ha : declared.Admits a)
    (hholds : ∀ q ∈ (e.enlisted p).propagators, q.Holds a) :
    Needs (e.enlisted p) a ∧ e.infeasible = false := by
  obtain ⟨hadmits, hfeasible⟩ := h.spares
    (fun q hq => hsmall q (List.mem_append.mpr (.inl hq))) a ha
    fun q hq => hholds q (mem_enlisted.mpr (.inl hq))
  exact ⟨⟨hadmits, fun q hq => ⟨h.small_enlisted hp hsmall hq, hholds q hq⟩⟩, hfeasible⟩

/-- An engine that has found a contradiction ignores what is posted. -/
theorem ignored (h : Recalls e declared posted) (hp : p.Readable declared)
    (hinfeasible : e.infeasible = true) :
    Recalls (e.note (.ignored p.name)) declared (posted ++ [p]) where
  quiet := ⟨h.quiet.legible.of_sets rfl rfl, h.quiet.drained, h.quiet.modified_eq⟩
  proper := h.proper
  le := h.le
  readable := h.readable_append hp
  objective := h.objective
  installed := fun q hq => List.mem_append.mpr (.inl (h.installed q hq))
  complete := fun hfalse => absurd (hinfeasible.symm.trans hfalse) (by simp)
  spares := fun hsmall => h.spares fun q hq => hsmall q (List.mem_append.mpr (.inl hq))

/-- The new propagator is there, and its consequences have been drawn. -/
theorem advanced (h : Recalls e declared posted) (hp : p.Readable declared)
    (hadv : Advances (e.enlisted p) e') (hdrained : e'.Drained)
    (hmodified : e'.store.modified = #[]) :
    Recalls e' declared (posted ++ [p]) where
  quiet := ⟨hadv.legible (legible_enlisted h.quiet.legible (hp.mono h.le)), hdrained, hmodified⟩
  proper := h.proper
  le := Store.le_trans hadv.yields.le h.le
  readable := h.readable_append hp
  objective := fun direction v hv =>
    h.objective direction v ((objective_eq_of_posted hadv.posted_eq).symm.trans hv)
  installed := fun q hq => h.mem_of_enlisted (hadv.propagators_eq ▸ hq)
  complete := fun hfalse q hq => by
    have hfeasible : e'.infeasible = e.infeasible := congrArg (·.infeasible) hadv.posted_eq
    rw [hadv.propagators_eq]
    refine mem_enlisted.mpr ((List.mem_append.mp hq).imp ?_ List.mem_singleton.mp)
    exact h.complete (hfeasible.symm.trans hfalse) q
  spares := fun hsmall a ha hholds => by
    obtain ⟨hneed, hfalse⟩ := h.needs_enlisted hp hsmall ha (hadv.propagators_eq ▸ hholds)
    exact ⟨hadv.spares a hneed, (congrArg (·.infeasible) hadv.posted_eq).trans hfalse⟩

/-- A conflict is remembered. -/
theorem refuted (h : Recalls e declared posted) (hp : p.Readable declared)
    (hfol : Follows (e.enlisted p) e') (hdrained : e'.Drained)
    (hmodified : e'.store.modified = #[]) (hnone : ∀ a, ¬ Needs (e.enlisted p) a) :
    Recalls (e'.refuted p) declared (posted ++ [p]) where
  quiet := by
    have hw := hfol.legible (legible_enlisted h.quiet.legible (hp.mono h.le))
    exact ⟨⟨hw.proper, hw.readable, hw.objective, hw.watchers_size, hw.watched, hw.watchers_lt⟩,
      hdrained, hmodified⟩
  proper := h.proper
  le := Store.le_trans hfol.yields.le h.le
  readable := h.readable_append hp
  objective := fun direction v hv =>
    h.objective direction v ((objective_eq_of_posted hfol.posted_eq).symm.trans hv)
  installed := fun q hq => by
    have hq : q ∈ e'.propagators := hq
    exact h.mem_of_enlisted (hfol.propagators_eq ▸ hq)
  complete := fun hfalse => absurd hfalse (by simp [Engine.refuted])
  spares := fun hsmall a ha hholds => by
    have hholds' : ∀ q ∈ (e.enlisted p).propagators, q.Holds a := hfol.propagators_eq ▸ hholds
    exact absurd (h.needs_enlisted hp hsmall ha hholds').1 (hnone a)

/-- Posting keeps track of the propagator, unless large terms overflow. -/
theorem post (h : Recalls e declared posted) (hp : p.Readable declared) :
    match Running.post p e with
    | .ok _ e' => Recalls e' declared (posted ++ [p]) ∧ e'.objective = e.objective
    | .error f _ => f = .overflow ∧ ¬ ∀ q ∈ posted ++ [p], q.Small declared := by
  rw [post_eq]
  by_cases hinf : e.infeasible = true
  · rw [if_pos hinf]
    exact ⟨h.ignored hp hinf, rfl⟩
  rw [if_neg hinf]
  match Running.propagate (e.enlisted p),
    propagated_propagate (legible_enlisted h.quiet.legible (hp.mono h.le))
      (waiting_enlisted h.quiet.drained) with
  | .ok _ e', ⟨hadv, hdrained, hmodified⟩ =>
    have hobj := objective_eq_of_posted hadv.posted_eq
    exact ⟨h.advanced hp hadv hdrained hmodified, hobj⟩
  | .error .conflict e', ⟨hfol, hdrained, hmodified, hnone⟩ =>
    have hobj := objective_eq_of_posted hfol.posted_eq
    exact ⟨h.refuted hp hfol hdrained hmodified hnone, hobj⟩
  | .error .overflow e', hlarge =>
    exact ⟨rfl, fun hsmall => hlarge fun q hq => h.small_enlisted hp hsmall hq⟩

/-! ## Solving -/

theorem of_store_eq (h : Recalls e declared posted) (hstore : e'.store = e.store)
    (hposted : e'.posted = e.posted) (hdrained : e'.Drained) : Recalls e' declared posted := by
  have hpropagators := propagators_eq_of_posted hposted
  have hfeasible : e'.infeasible = e.infeasible := congrArg (·.infeasible) hposted
  refine ⟨⟨h.quiet.legible.of_sets (by rw [hstore]) hposted, hdrained, ?_⟩, h.proper, ?_, h.readable,
    ?_, ?_, ?_, ?_⟩
  · rw [hstore]
    exact h.quiet.modified_eq
  · rw [hstore]
    exact h.le
  · rw [objective_eq_of_posted hposted]
    exact h.objective
  · rw [hpropagators]
    exact h.installed
  · rw [hpropagators, hfeasible]
    exact h.complete
  · rw [hpropagators, hfeasible, hstore]
    exact h.spares

/-- Solving leaves the engine as it was, unless large terms overflow. -/
theorem solve (h : Recalls e declared posted) :
    match Running.solve e with
    | .ok outcome e' => ∃ found, Solved e e' outcome found ∧ Recalls e' declared posted
    | .error f _ => f = .overflow ∧ ¬ ∀ p ∈ posted, p.Small declared := by
  match Running.solve e, searched_solve h.quiet with
  | .ok outcome e', ⟨found, hsolved⟩ =>
    exact ⟨found, hsolved, h.of_store_eq hsolved.store_eq hsolved.posted_eq hsolved.drained⟩
  | .error f e', ⟨hf, hlarge⟩ => exact ⟨hf, fun hsmall => hlarge (h.small hsmall)⟩

variable {outcome : Statistics} {found : List (Array Int)} {values : Array Int}

/-- Recorded values lie in the declared sets, and every posted propagator has accepted them. -/
theorem accepts (h : Recalls e declared posted) (hsolved : Solved e e' outcome found)
    (hv : values ∈ found) :
    values.size = declared.numVariables ∧ declared.Admits (valuation values) ∧
      ∀ p ∈ posted, p.Accepts (valuation values) := by
  obtain ⟨hsize, hadmits, haccepts⟩ := hsolved.accepted values hv
  have hfeasible : e.infeasible = false := by
    by_contra hinf
    have := hsolved.feasible (by simpa using hinf)
    simp [this] at hv
  exact ⟨hsize.trans (Store.numVariables_eq_of_le h.le), Store.admits_of_le h.le hadmits,
    fun p hp => haccepts p (h.complete hfeasible p hp)⟩

/-- If all propagators are small, recorded values are a solution. -/
theorem solves (h : Recalls e declared posted) (hsmall : ∀ p ∈ posted, p.Small declared)
    (hsolved : Solved e e' outcome found) (hv : values ∈ found) :
    Solves declared posted (valuation values) := by
  obtain ⟨-, hadmits, haccepts⟩ := h.accepts hsolved hv
  exact ⟨hadmits, fun p hp =>
    ((h.readable p hp).accepts_iff_holds h.proper hadmits (hsmall p hp)).mp (haccepts p hp)⟩

/-- What is found last gives every view its value. -/
theorem solutionValue_eq (h : Recalls e declared posted) (hsolved : Solved e e' outcome found)
    {v : View} (hlast : found.getLast? = some values) (hv : v.Exact declared) :
    e'.solutionValue v = some (v.eval (valuation values)) := by
  obtain ⟨hsize, hadmits, -⟩ := h.accepts hsolved (List.mem_of_getLast? hlast)
  cases v with
  | constant c => rfl
  | affine x negated offset =>
      have hx : x < values.size := hsize ▸ hv.1
      have hmem := hv.2 _ (hadmits x hv.1)
      have hvalue : valuation values x = values[x] := by simp [valuation, hx]
      rw [solutionValue, hsolved.solution_eq, hlast, Option.bind_some,
        Array.getElem?_eq_getElem hx, Option.map_some, View.eval_affine, ← hvalue,
        View.map_eq_raw hmem]

/-- A solution is beaten by what an exhausted search has found. -/
theorem beaten (h : Recalls e declared posted) (hsmall : ∀ p ∈ posted, p.Small declared)
    (ha : Solves declared posted a) {best : Option Int}
    (hended : Search.Ended e (!e.infeasible) best found .exhausted) : Beaten e.objective best a := by
  obtain ⟨hneeds, hfeasible⟩ := h.needs hsmall ha
  exact hended.1 (by simp [hfeasible]) a hneeds

end Recalls

namespace Tracks

variable {outcome : Statistics} {found : List (Array Int)} {values : Array Int} {v : View}

theorem fresh : Tracks {} {} [] := Recalls.fresh.tracks (by simp)

theorem setObjective (h : Tracks e declared posted) (direction : Direction) (hv : v.Exact declared) :
    Tracks (e.setObjective direction v) declared posted :=
  (h.recalls.setObjective direction hv).tracks h.exact

theorem addVariable (h : Tracks e declared posted) (hd : d.Proper) (name : String) :
    Tracks (e.addVariable d name).2 (declared.addVariable d) posted :=
  (h.recalls.addVariable hd name).tracks fun p hp =>
    (h.exact p hp).extend (declared.extends_addVariable d)

theorem post (h : Tracks e declared posted) (hp : p.Exact declared) :
    match Running.post p e with
    | .ok _ e' => Tracks e' declared (posted ++ [p]) ∧ e'.objective = e.objective
    | .error f _ => f = .overflow ∧ ¬ ∀ q ∈ posted ++ [p], q.Small declared := by
  have hexact : ∀ q ∈ posted ++ [p], q.Exact declared := fun q hq =>
    (List.mem_append.mp hq).elim (h.exact q) fun hq => List.mem_singleton.mp hq ▸ hp
  match Running.post p e, h.recalls.post hp.readable with
  | .ok _ e', ⟨hrecalls, hobj⟩ => exact ⟨hrecalls.tracks hexact, hobj⟩
  | .error f e', hfail => exact hfail

theorem of_store_eq (h : Tracks e declared posted) (hstore : e'.store = e.store)
    (hposted : e'.posted = e.posted) (hdrained : e'.Drained) : Tracks e' declared posted :=
  (h.recalls.of_store_eq hstore hposted hdrained).tracks h.exact

theorem solve (h : Tracks e declared posted) :
    match Running.solve e with
    | .ok outcome e' => ∃ found, Solved e e' outcome found ∧ Tracks e' declared posted
    | .error f _ => f = .overflow ∧ ¬ ∀ p ∈ posted, p.Small declared := by
  match Running.solve e, h.recalls.solve with
  | .ok outcome e', ⟨found, hsolved, hrecalls⟩ => exact ⟨found, hsolved, hrecalls.tracks h.exact⟩
  | .error f e', hfail => exact hfail

end Tracks

end FiniteDomain.Engine
