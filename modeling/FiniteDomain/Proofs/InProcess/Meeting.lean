import FiniteDomain.Proofs.Engine.Traces
import FiniteDomain.Proofs.InProcess.Termination
import FiniteDomain.Proofs.InProcess.Views

/-!
# Meeting variables

Between two calls the engine of a backend is at rest, and every view is one of its variables.
From any such state the view of an atom can be had, and so can those of many atoms: this never
fails, and it changes nothing but that there are more variables and more views. Any model of the
engine extends to the new variables.
-/

namespace FiniteDomain

/-! ## New variables of the engine -/

namespace Engine

variable {e e' e'' : Engine} {a b : Valuation} {s : Store}

/-- Only variables are new. -/
structure Widens (e e' : Engine) : Prop where
  store : e.store.Extends e'.store
  propagators_eq : e'.propagators = e.propagators
  infeasible_eq : e'.infeasible = e.infeasible

theorem Widens.refl (e : Engine) : Widens e e := ⟨.refl _, rfl, rfl⟩

theorem Widens.trans (h : Widens e e') (h' : Widens e' e'') : Widens e e'' where
  store := h.store.trans h'.store
  propagators_eq := h'.propagators_eq.trans h.propagators_eq
  infeasible_eq := h'.infeasible_eq.trans h.infeasible_eq

theorem Widens.tightens (h : Widens e e') : Tightens e e' where
  infeasible := h.infeasible_eq.trans
  propagators := fun _ hp => h.propagators_eq ▸ hp
  admits := fun _ => h.store.admits

theorem Widens.bounded (h : Widens e e') (he : Bounded e) : Bounded e' := fun p hp =>
  he p (h.propagators_eq ▸ hp)

/-- The journal does not matter. -/
theorem Resting.journal (h : Resting e) (journal : Array Event) : Resting { e with journal } :=
  ⟨h.of_posted h.proper rfl rfl, h.drained, h.modified_eq⟩

/-- The value of a view depends on the variable that it reads. -/
theorem View.Created.eval_congr {v : View} (h : v.Created s) (hab : ∀ x < s.numVariables, a x = b x) :
    v.eval a = v.eval b := by
  cases v with
  | constant c => rfl
  | affine x negated offset => simp only [View.eval, hab x (h x rfl)]

/-- A model extends to the new variables. -/
theorem Widens.exists_isModel (h : Widens e e') (hg : Grounded e) (hproper : e'.store.Proper)
    (ha : IsModel e a) : ∃ b, IsModel e' b ∧ ∀ x < e.store.numVariables, b x = a x := by
  obtain ⟨hinf, hadmits, hholds⟩ := ha
  let b : Valuation := fun x => if x < e.store.numVariables then a x else (e'.store.set x).lower
  have hold : ∀ x < e.store.numVariables, b x = a x := fun x hx => if_pos hx
  refine ⟨b, ⟨h.infeasible_eq.trans hinf, fun x hx => ?_, fun p hp => ?_⟩, hold⟩
  · by_cases hlt : x < e.store.numVariables
    · rw [hold x hlt, h.store.set_eq x hlt]
      exact hadmits x hlt
    · rw [show b x = (e'.store.set x).lower from if_neg hlt]
      exact (hproper x hx).lower_mem
  · rw [h.propagators_eq] at hp
    exact (hholds p hp).congr fun v hv => (hg.created p hp v hv).eval_congr fun x hx => (hold x hx).symm

end Engine

namespace InProcess

open Engine (View Valuation Store Resting Grounded Tightens Widens)

variable {α β : Type} {s s' s'' : Lowering.State InProcess} {x : Variable} {xs ys : List Variable}
  {e : Expr} {es : List Expr} {c : Constraint} {cs : List Constraint} {v : View}

/-! ## States between two calls -/

/-- The engine is at rest, and the views are variables of it. -/
structure Ready (s : Lowering.State InProcess) : Prop where
  resting : Resting s.backend.engine
  views : ∀ id v, s.backend.views.lookup id = some v →
    ∃ i < s.backend.engine.numVariables, v = .ofVar i

/-- The variable has a view. -/
def Met (s : Lowering.State InProcess) (x : Variable) : Prop :=
  ∃ v, s.backend.views.lookup x.id = some v

/-- The views that there were are still there. -/
def Keeping (s s' : Lowering.State InProcess) : Prop :=
  ∀ id v, s.backend.views.lookup id = some v → s'.backend.views.lookup id = some v

theorem Ready.of_backend (h : Ready s) (hbackend : s'.backend = s.backend) : Ready s' where
  resting := hbackend ▸ h.resting
  views := hbackend ▸ h.views

/-- After a call that has created no variable. -/
theorem Ready.resume {e : Engine} (h : Ready s) (he : Resting e)
    (hsize : e.store.numVariables = s.backend.engine.store.numVariables)
    (hbackend : s'.backend = { s.backend with engine := { e with journal := #[] } }) : Ready s' where
  resting := by
    rw [hbackend]
    exact he.journal #[]
  views := fun id v hv => by
    rw [hbackend] at hv ⊢
    obtain ⟨i, hi, rfl⟩ := h.views id v hv
    exact ⟨i, hi.trans_eq hsize.symm, rfl⟩

/-- A state that an account is right about. -/
theorem Describes.ready {g : Account} (h : Describes g s) : Ready s where
  resting :=
    { proper := h.tracks.idle.wellFormed.proper
      created := fun p hp v hv => View.Exact.created (h.tracks.idle.wellFormed.exact p hp v hv)
      objective := fun direction v hv =>
        View.Exact.created (h.tracks.idle.wellFormed.objective direction v hv)
      watchers_lt := h.tracks.idle.wellFormed.watchers_lt
      drained := h.tracks.idle.drained
      modified_eq := h.tracks.idle.modified_eq }
  views := fun id v hv => by
    obtain ⟨i, hi, rfl⟩ := (h.views_iff id v).mp hv
    refine ⟨i, ?_, rfl⟩
    have hlt := (List.getElem?_eq_some_iff.mp hi).1
    rw [h.consistent.length_owners, ← Engine.Store.numVariables_eq_of_le h.tracks.le] at hlt
    exact hlt

/-- The variables are met, and nothing else happens: only variables of the engine and their views
are new. -/
structure Meets (xs : List Variable) (s s' : Lowering.State InProcess) : Prop where
  ready : Ready s'
  widens : Widens s.backend.engine s'.backend.engine
  keeping : Keeping s s'
  met : ∀ x ∈ xs, Met s' x

namespace Meets

theorem refl (h : Ready s) : Meets [] s s := ⟨h, .refl _, fun _ _ => id, by simp⟩

theorem trans (h : Meets xs s s') (h' : Meets ys s' s'') : Meets (xs ++ ys) s s'' where
  ready := h'.ready
  widens := h.widens.trans h'.widens
  keeping := fun id v hv => h'.keeping id v (h.keeping id v hv)
  met := List.forall_mem_append.mpr
    ⟨fun x hx => (h.met x hx).imp fun v hv => h'.keeping x.id v hv, h'.met⟩

theorem subset (h : Meets xs s s') (hle : ys ⊆ xs) : Meets ys s s' :=
  { h with met := fun x hx => h.met x (hle hx) }

/-- What only the journal tells apart meets the same variables. -/
theorem of_backend (h : Meets xs s s') (hbackend : s''.backend = s'.backend) : Meets xs s s'' where
  ready := h.ready.of_backend hbackend
  widens := hbackend ▸ h.widens
  keeping := fun id v hv => hbackend ▸ h.keeping id v hv
  met := fun x hx => by
    have hmet := h.met x hx
    rwa [Met, ← hbackend] at hmet

end Meets

/-! ## Views of atoms -/

theorem bind_ok {action : Action α} {next : α → Action β} {a : α} (h : action s = .ok a s') :
    (action >>= next) s = next a s' := by
  simp only [Bind.bind, EStateM.bind, h]

theorem bind_error {action : Action α} {next : α → Action β} {stop : Stop}
    (h : action s = .error stop s') : (action >>= next) s = .error stop s' := by
  simp only [Bind.bind, EStateM.bind, h]

/-- The view of a variable can always be had. -/
theorem exists_bind (hs : Ready s) (x : Variable) : ∃ i s', bind x s = .ok (.ofVar i) s' ∧
    Meets [x] s s' ∧ i < s'.backend.engine.numVariables := by
  cases hlookup : s.backend.views.lookup x.id with
  | some v =>
      obtain ⟨i, hi, rfl⟩ := hs.views x.id v hlookup
      refine ⟨i, s, ?_, ⟨hs, .refl _, fun _ _ => id, ?_⟩, hi⟩
      · simp only [bind, Bind.bind, EStateM.bind, Lowering.getBackend_apply, hlookup]
        rfl
      · exact List.forall_mem_singleton.mpr ⟨_, hlookup⟩
  | none =>
      obtain ⟨d, hd, -, hcreated⟩ := exists_created x
      obtain ⟨s', hrun, ⟨⟨journal, hengine⟩, hviews, -⟩⟩ := hcreated s hlookup
      have hnum : s'.backend.engine.numVariables = s.backend.engine.numVariables + 1 := by
        rw [hengine]
        exact Store.numVariables_addVariable
      have hresting := Engine.resting_addVariable hs.resting hd x.name
      have hkeeping : Keeping s s' := fun id v hv => by
        have hne : id ≠ x.id := fun h => by cases (h ▸ hv).symm.trans hlookup
        rw [hviews, List.lookup_cons, beq_false_of_ne hne]
        exact hv
      refine ⟨_, s', hrun, ⟨⟨?_, fun id v hv => ?_⟩, ?_, hkeeping, ?_⟩, hnum ▸ Nat.lt_succ_self _⟩
      · rw [hengine]
        exact hresting.journal journal
      · rw [hnum]
        rw [hviews, List.lookup_cons] at hv
        split at hv
        · exact ⟨_, Nat.lt_succ_self _, (Option.some.inj hv).symm⟩
        · obtain ⟨i, hi, rfl⟩ := hs.views id v hv
          exact ⟨i, hi.trans (Nat.lt_succ_self _), rfl⟩
      · rw [hengine]
        exact ⟨Store.extends_addVariable _ d, rfl, rfl⟩
      · refine List.forall_mem_singleton.mpr ⟨.ofVar s.backend.engine.numVariables, ?_⟩
        rw [hviews, List.lookup_cons_self]

/-- The view is one of the engine, and a number that it stands for has 64 bits if that of the
expression has. -/
structure Stands (s : Lowering.State InProcess) (e : Expr) (v : View) : Prop where
  created : v.Created s.backend.engine.store
  fits : e.IsModerate → ∀ value, v = .constant value → word64.Fits value

theorem Stands.mono (h : Stands s e v) (hle : Widens s.backend.engine s'.backend.engine) :
    Stands s' e v :=
  ⟨h.created.mono hle.store.numVariables_le, h.fits⟩

/-- The view of an atom can always be had. -/
theorem exists_viewOfAtom (hs : Ready s) (a : Atom) :
    ∃ v s', viewOfAtom a s = .ok v s' ∧ Meets a.vars s s' ∧ Stands s' (.atom a) v := by
  cases a with
  | int x =>
      obtain ⟨i, s', hrun, hmeets, hi⟩ := exists_bind hs (.int x)
      exact ⟨_, s', hrun, hmeets, Engine.created_ofVar hi, fun _ _ h => by cases h⟩
  | literal l =>
      obtain ⟨i, s', hrun, hmeets, hi⟩ := exists_bind hs (.bool l.var)
      refine ⟨if l.negated then View.complement (.ofVar i) else .ofVar i, s', ?_, hmeets, ?_⟩
      · rw [viewOfAtom, bind_ok hrun]
        rfl
      · split
        · exact ⟨Engine.created_ofVar hi, fun _ _ h => by cases h⟩
        · exact ⟨Engine.created_ofVar hi, fun _ _ h => by cases h⟩
  | constant value =>
      refine ⟨.constant value, s, rfl, .refl hs, fun _ h => (by cases h), fun hfits _ h => ?_⟩
      cases h
      exact hfits
  | bool value =>
      refine ⟨.constant value.toInt, s, rfl, .refl hs, fun _ h => (by cases h), fun _ _ h => ?_⟩
      cases h
      cases value <;> decide

theorem exists_viewOf (hs : Ready s) (he : e.isAtom = true) :
    ∃ v s', viewOf e s = .ok v s' ∧ Meets e.occurrences s s' ∧ Stands s' e v := by
  obtain ⟨a, rfl⟩ := Expr.isAtom_iff.mp he
  exact exists_viewOfAtom hs a

theorem exists_literalOf (hs : Ready s) (hc : c.isAtom = true) : ∃ v s', literalOf c s = .ok v s' ∧
    Meets c.occurrences s s' ∧ v.Created s'.backend.engine.store := by
  obtain ⟨a, ha⟩ := Constraint.isAtom_iff.mp hc
  obtain ⟨v, s', hrun, hmeets, hv⟩ := exists_viewOfAtom hs a
  rw [vars_asAtom ha] at hmeets
  exact ⟨v, s', by rw [literalOf, ha]; exact hrun, hmeets, hv.created⟩

/-! ## Lists of atoms -/

/-- Views are had one after the other. -/
theorem exists_mapM {f : α → Action View} {occurrences : α → List Variable}
    {R : Lowering.State InProcess → α → View → Prop} {as : List α}
    (hmono : ∀ {s s' a v}, R s a v → Widens s.backend.engine s'.backend.engine → R s' a v)
    (hf : ∀ a ∈ as, ∀ {s}, Ready s → ∃ v s', f a s = .ok v s' ∧ Meets (occurrences a) s s' ∧ R s' a v)
    (hs : Ready s) : ∃ vs s', as.mapM f s = .ok vs s' ∧ Meets (as.flatMap occurrences) s s' ∧
      List.Forall₂ (R s') as vs := by
  induction as generalizing s with
  | nil => exact ⟨[], s, rfl, .refl hs, .nil⟩
  | cons a as ih =>
      obtain ⟨hfirst, hrest⟩ := List.forall_mem_cons.mp hf
      obtain ⟨v, s₁, hrun₁, hmeets₁, hv⟩ := hfirst hs
      obtain ⟨vs, s₂, hrun₂, hmeets₂, hvs⟩ := ih hrest hmeets₁.ready
      refine ⟨v :: vs, s₂, ?_, hmeets₁.trans hmeets₂, .cons (hmono hv hmeets₂.widens) hvs⟩
      rw [List.mapM_cons, bind_ok hrun₁, bind_ok hrun₂]
      rfl

theorem exists_viewsOf (hs : Ready s) (hes : ∀ e ∈ es, e.isAtom = true) :
    ∃ vs s', es.mapM viewOf s = .ok vs s' ∧ Meets (es.flatMap Expr.occurrences) s s' ∧
      List.Forall₂ (Stands s') es vs :=
  exists_mapM Stands.mono (fun e he _ hs => exists_viewOf hs (hes e he)) hs

theorem exists_literalsOf (hs : Ready s) (hcs : ∀ c ∈ cs, c.isAtom = true) :
    ∃ vs s', cs.mapM literalOf s = .ok vs s' ∧ Meets (cs.flatMap Constraint.occurrences) s s' ∧
      ∀ v ∈ vs, v.Created s'.backend.engine.store := by
  obtain ⟨vs, s', hrun, hmeets, hvs⟩ := exists_mapM (f := literalOf)
    (R := fun s _ v => v.Created s.backend.engine.store)
    (fun h hle => h.mono hle.store.numVariables_le)
    (fun c hc _ hs => exists_literalOf hs (hcs c hc)) hs
  refine ⟨vs, s', hrun, hmeets, fun v hv => ?_⟩
  obtain ⟨c, -, hv⟩ := exists_related' hvs hv
  exact hv

end InProcess

end FiniteDomain
