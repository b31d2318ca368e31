import FiniteDomain.InProcess.Posting
import FiniteDomain.Proofs.Constraint.Decomposition
import FiniteDomain.Proofs.Engine.Requests

/-!
# What is known of a backend

An account of a backend says which variables there are, which of them have a variable of the
engine, and what was posted about these. Values of the variables give values to the engine's
variables. An account allows values if nothing posted speaks against them; values meet it if all
posted propagators are small and hold.

Every action of the backend leads from an account to a larger one, unless an intermediate result
overflows.
-/

namespace FiniteDomain.InProcess

open Engine (View Valuation Store Propagator Rule Running Tracks ValueSet)

/-- What is known of a backend. -/
structure Account where
  registry : Registry
  /-- The variable that a variable of the engine was created for. -/
  owners : List VarId := []
  /-- The values that the engine's variables may take. -/
  declared : Store := {}
  posted : List Propagator := []
  objective : Option (Direction × View) := none

namespace Account

variable {g g' g'' : Account} {τ τ' : VarId → Int} {v : View} {p : Propagator} {i : Nat}

/-- The values of the engine's variables. -/
def valuation (g : Account) (τ : VarId → Int) : Valuation := fun i => τ (g.owners.getD i 0)

/-- Every variable of the engine takes the values of the variable that it was created for. -/
structure Consistent (g : Account) : Prop where
  length_owners : g.owners.length = g.declared.numVariables
  proper : g.declared.Proper
  exact : ∀ p ∈ g.posted, p.Exact g.declared
  owned : ∀ i id, g.owners[i]? = some id → id < g.registry.next ∧
    ∀ w, w ∈ g.declared.set i ↔ (g.registry.lookup id).domain.contains w = true

/-- Only more is known. -/
structure Grows (g g' : Account) : Prop where
  registry : g.registry ≤ g'.registry
  owners : g.owners <+: g'.owners
  declared : g.declared.Extends g'.declared
  posted : g.posted <+: g'.posted

theorem Grows.refl (g : Account) : g.Grows g :=
  ⟨g.registry.le_refl, List.prefix_refl _, .refl _, List.prefix_refl _⟩

theorem Grows.trans (h : g.Grows g') (h' : g'.Grows g'') : g.Grows g'' where
  registry := Registry.le_trans h.registry h'.registry
  owners := h.owners.trans h'.owners
  declared := h.declared.trans h'.declared
  posted := h.posted.trans h'.posted

/-- The values of the variables belong to what was declared to the engine. -/
theorem Consistent.admits (hg : g.Consistent) (hτ : g.registry.Respects τ) :
    g.declared.Admits (g.valuation τ) := by
  intro i hi
  rw [← hg.length_owners] at hi
  obtain ⟨hid, hmem⟩ := hg.owned i _ (List.getElem?_eq_getElem hi)
  rw [valuation, List.getD_eq_getElem _ _ hi]
  exact (hmem _).mpr (hτ _ hid)

theorem valuation_grows (h : g.Grows g') (hi : i < g.owners.length) :
    g'.valuation τ i = g.valuation τ i := by
  obtain ⟨rest, hrest⟩ := h.owners
  rw [valuation, valuation, ← hrest, List.getD_append _ _ _ _ hi]

theorem valuation_agree (hg : g.Consistent) (hagree : Agree g.registry.next τ τ')
    (hi : i < g.owners.length) : g.valuation τ' i = g.valuation τ i := by
  obtain ⟨hid, -⟩ := hg.owned i _ (List.getElem?_eq_getElem hi)
  rw [valuation, valuation, List.getD_eq_getElem _ _ hi]
  exact hagree _ hid

/-- An exact view has a value that only depends on the variables it was created for. -/
theorem eval_congr {a b : Valuation} (hg : g.Consistent) (hv : v.Exact g.declared)
    (h : ∀ i < g.owners.length, a i = b i) : v.eval a = v.eval b := by
  cases v with
  | constant c => rfl
  | affine x negated offset =>
      rw [View.eval, View.eval, h x (hg.length_owners ▸ hv.1)]

theorem eval_grows (hg : g.Consistent) (h : g.Grows g') (hv : v.Exact g.declared) :
    v.eval (g'.valuation τ) = v.eval (g.valuation τ) :=
  eval_congr hg hv fun _ hi => valuation_grows h hi

/-- The values are allowed by what was posted. -/
def Allows (g : Account) (τ : VarId → Int) : Prop :=
  g.registry.Respects τ ∧ ∀ p ∈ g.posted, p.Passes (g.valuation τ)

/-- The values are a solution of what was posted, and no sum is too large. -/
def Meets (g : Account) (τ : VarId → Int) : Prop :=
  g.registry.Respects τ ∧ ∀ p ∈ g.posted, p.Small g.declared ∧ p.Holds (g.valuation τ)

/-- All posted propagators are small. -/
def Small (g : Account) : Prop := ∀ p ∈ g.posted, p.Small g.declared

theorem Allows.of_grows (hg : g.Consistent) (h : g.Grows g') (hτ : g'.Allows τ) : g.Allows τ := by
  refine ⟨hτ.1.mono h.registry, fun p hp => ?_⟩
  exact (hτ.2 p (h.posted.subset hp)).congr fun v hv => eval_grows hg h (hg.exact p hp v hv)

theorem holds_congr {a b : Valuation} (h : p.Holds a)
    (hviews : ∀ v ∈ p.views, v.eval a = v.eval b) (hsmall : p.Small g.declared)
    (hg : g.Consistent) (hp : p.Exact g.declared) (ha : g.declared.Admits a)
    (hb : g.declared.Admits b) : p.Holds b := by
  rw [← Propagator.accepts_iff_holds hg.proper hp hb hsmall]
  exact ((Propagator.accepts_iff_holds hg.proper hp ha hsmall).mpr h).congr hviews

/-- Where no sum is too large, a solution is what was posted allows. -/
theorem meets_iff_allows (hg : g.Consistent) : g.Meets τ ↔ g.Small ∧ g.Allows τ := by
  have hiff : ∀ p ∈ g.posted, g.registry.Respects τ → p.Small g.declared →
      (p.Passes (g.valuation τ) ↔ p.Holds (g.valuation τ)) := fun p hp hτ hsmall =>
    Propagator.passes_iff_holds hg.proper (hg.exact p hp) (hg.admits hτ) hsmall
  constructor
  · rintro ⟨hτ, hall⟩
    exact ⟨fun p hp => (hall p hp).1, hτ, fun p hp => (hiff p hp hτ (hall p hp).1).mpr (hall p hp).2⟩
  · rintro ⟨hsmall, hτ, hall⟩
    exact ⟨hτ, fun p hp => ⟨hsmall p hp, (hiff p hp hτ (hsmall p hp)).mp (hall p hp)⟩⟩

/-- New variables do not matter for what was posted before. -/
theorem Meets.of_agree (hg : g.Consistent) (hg' : g'.Consistent) (h : g.Grows g')
    (hposted : g'.posted = g.posted) (hagree : Agree g.registry.next τ τ')
    (hτ' : g'.registry.Respects τ') (hτ : g.Meets τ) : g'.Meets τ' := by
  refine ⟨hτ', fun p hp => ?_⟩
  rw [hposted] at hp
  obtain ⟨hsmall, hholds⟩ := hτ.2 p hp
  have hexact := hg.exact p hp
  refine ⟨(Propagator.small_extend_iff hexact h.declared).mpr hsmall, ?_⟩
  have hadmits' : g.declared.Admits (g'.valuation τ') :=
    h.declared.admits (hg'.admits hτ')
  refine holds_congr hholds (fun v hv => ?_) hsmall hg hexact (hg.admits hτ.1) hadmits'
  refine eval_congr hg (hexact v hv) fun i hi => ?_
  rw [valuation_grows h hi, valuation_agree hg hagree hi]

/-- The account after a propagator was posted. -/
def post (g : Account) (p : Propagator) : Account := { g with posted := g.posted ++ [p] }

theorem grows_post (g : Account) (p : Propagator) : g.Grows (g.post p) :=
  ⟨g.registry.le_refl, List.prefix_refl _, .refl _, List.prefix_append _ _⟩

theorem consistent_post (hg : g.Consistent) (hp : p.Exact g.declared) :
    (g.post p).Consistent where
  length_owners := hg.length_owners
  proper := hg.proper
  exact := List.forall_mem_append.mpr ⟨hg.exact, List.forall_mem_singleton.mpr hp⟩
  owned := hg.owned

theorem allows_post_iff : (g.post p).Allows τ ↔ g.Allows τ ∧ p.Passes (g.valuation τ) := by
  rw [Allows, Allows, and_assoc]
  refine and_congr_right fun _ => ?_
  rw [post, List.forall_mem_append, List.forall_mem_singleton]
  rfl

theorem meets_post_iff : (g.post p).Meets τ ↔
    g.Meets τ ∧ p.Small g.declared ∧ p.Holds (g.valuation τ) := by
  rw [Meets, Meets, and_assoc]
  refine and_congr_right fun _ => ?_
  rw [post, List.forall_mem_append, List.forall_mem_singleton]
  rfl

/-- The account after variables were created that the engine has not met. -/
def know (g : Account) (r : Registry) : Account := { g with registry := r }

theorem grows_know {r : Registry} (h : g.registry ≤ r) : g.Grows (g.know r) :=
  ⟨h, List.prefix_refl _, .refl _, List.prefix_refl _⟩

theorem consistent_know {r : Registry} (hg : g.Consistent) (h : g.registry ≤ r) :
    (g.know r).Consistent where
  length_owners := hg.length_owners
  proper := hg.proper
  exact := hg.exact
  owned := fun i id hi => by
    obtain ⟨hid, hmem⟩ := hg.owned i id hi
    refine ⟨hid.trans_le h.1, fun w => ?_⟩
    rw [know, h.2 id hid]
    exact hmem w

/-- The account after a variable of the engine was created. -/
def own (g : Account) (id : VarId) (d : ValueSet) : Account :=
  { g with owners := g.owners ++ [id], declared := g.declared.addVariable d }

theorem grows_own (g : Account) (id : VarId) (d : ValueSet) : g.Grows (g.own id d) :=
  ⟨g.registry.le_refl, List.prefix_append _ _, g.declared.extends_addVariable d,
    List.prefix_refl _⟩

theorem consistent_own {id : VarId} {d : ValueSet} (hg : g.Consistent) (hd : d.Proper)
    (hid : id < g.registry.next)
    (hmem : ∀ w, w ∈ d ↔ (g.registry.lookup id).domain.contains w = true) :
    (g.own id d).Consistent where
  length_owners := by simp [own, hg.length_owners]
  proper := Store.proper_addVariable hg.proper hd
  exact := fun p hp => (hg.exact p hp).extend (g.declared.extends_addVariable d)
  owned := fun i j hi => by
    rw [own, List.getElem?_append] at hi
    split at hi
    · next hlt =>
      rw [own, (g.declared.extends_addVariable d).set_eq i (hg.length_owners ▸ hlt)]
      exact hg.owned i j hi
    · next hge =>
      obtain ⟨hzero, rfl⟩ : i - g.owners.length = 0 ∧ id = j := by
        rw [List.getElem?_singleton] at hi
        split at hi
        · next h => exact ⟨h, Option.some.inj hi⟩
        · cases hi
      obtain rfl : i = g.declared.numVariables := by
        rw [← hg.length_owners]
        exact Nat.le_antisymm (Nat.sub_eq_zero_iff_le.mp hzero) (not_lt.mp hge)
      rw [own, Store.set_addVariable_self]
      exact ⟨hid, hmem⟩

end Account

/-! ## The state of a backend -/

/-- The account is right about the state. -/
structure Describes (g : Account) (s : Lowering.State InProcess) : Prop where
  consistent : g.Consistent
  tracks : Tracks s.backend.engine g.declared g.posted
  objective_eq : s.backend.engine.objective = g.objective
  next_eq : s.nextId = g.registry.next
  views_iff : ∀ id v, s.backend.views.lookup id = some v ↔
    ∃ i, g.owners[i]? = some id ∧ v = View.ofVar i

/-- What an action ends with: the account grows, the objective is the same, and the result is
right. An action that overflows promises nothing. -/
def Outcome {α : Type} (g : Account) (Q : α → Account → Prop) :
    EStateM.Result Stop (Lowering.State InProcess) α → Prop
  | .ok a s => ∃ g', g.Grows g' ∧ g'.objective = g.objective ∧ Describes g' s ∧ Q a g'
  | .error (.error _) s => ∃ g', g.Grows g' ∧ g'.objective = g.objective ∧ Describes g' s
  | .error .overflow _ => True

/-- The action keeps an account of the backend. -/
def Keeps {α : Type} (g : Account) (action : Action α) (Q : α → Account → Prop) : Prop :=
  ∀ s, Describes g s → Outcome g Q (action s)

section Keeps

variable {α β : Type} {g g' : Account} {action : Action α} {Q Q' : α → Account → Prop}

theorem Keeps.pure {a : α} (h : g.Consistent → Q a g) : Keeps g (Pure.pure a) Q :=
  fun _ hs => ⟨g, .refl g, rfl, hs, h hs.consistent⟩

theorem Keeps.refuse {e : LoweringError} : Keeps g (Lowering.refuse e : Action α) Q :=
  fun _ hs => ⟨g, .refl g, rfl, hs⟩

theorem Keeps.bind {next : α → Action β} {Q' : β → Account → Prop} (h : Keeps g action Q)
    (hnext : ∀ a g', g.Grows g' → g'.Consistent → Q a g' → Keeps g' (next a) Q') :
    Keeps g (action >>= next) Q' := by
  intro s hs
  have hfirst := h s hs
  simp only [Bind.bind, EStateM.bind]
  generalize action s = r at hfirst
  rcases r with ⟨a, s'⟩ | ⟨e, s'⟩
  · obtain ⟨g₁, hle₁, hobj₁, hs', ha⟩ := hfirst
    have hsecond := hnext a g₁ hle₁ hs'.consistent ha s' hs'
    simp only
    generalize next a s' = r at hsecond
    rcases r with ⟨b, s''⟩ | ⟨e, s''⟩
    · obtain ⟨g₂, hle₂, hobj₂, hs'', hb⟩ := hsecond
      exact ⟨g₂, hle₁.trans hle₂, hobj₂.trans hobj₁, hs'', hb⟩
    · cases e with
      | overflow => trivial
      | error e =>
          obtain ⟨g₂, hle₂, hobj₂, hs''⟩ := hsecond
          exact ⟨g₂, hle₁.trans hle₂, hobj₂.trans hobj₁, hs''⟩
  · cases e with
    | overflow => trivial
    | error e => exact hfirst

theorem Keeps.weaken (h : Keeps g action Q)
    (himp : ∀ a g', g.Grows g' → g'.Consistent → Q a g' → Q' a g') : Keeps g action Q' := by
  intro s hs
  have hfirst := h s hs
  generalize action s = r at hfirst
  rcases r with ⟨a, s'⟩ | ⟨e, s'⟩
  · obtain ⟨g₁, hle₁, hobj₁, hs', ha⟩ := hfirst
    exact ⟨g₁, hle₁, hobj₁, hs', himp a g₁ hle₁ hs'.consistent ha⟩
  · cases e with
    | overflow => trivial
    | error e => exact hfirst

theorem Keeps.note {event : Event} : Keeps g (Lowering.note event) fun _ g' => g' = g :=
  fun _ hs => ⟨g, .refl g, rfl,
    ⟨hs.consistent, hs.tracks, hs.objective_eq, hs.next_eq, hs.views_iff⟩, rfl⟩

/-- Creating variables leads to an account that knows them. -/
theorem Keeps.fresh {create : Fresh α} {P : α → Registry → Prop}
    (h : Makes g.registry create P) :
    Keeps g (Lowering.fresh create) fun a g' => ∃ r, g' = g.know r ∧ P a r := by
  intro s hs
  obtain ⟨r, hle, hnext, hp⟩ := h
  rw [← hs.next_eq] at hnext hp
  exact ⟨g.know r, Account.grows_know hle, rfl, ⟨Account.consistent_know hs.consistent hle,
    hs.tracks, hs.objective_eq, hnext.symm, hs.views_iff⟩, r, rfl, hp⟩

end Keeps

/-! ## The engine -/

section OnEngine

variable {g : Account} {p : Propagator} {e : Engine} {declared : Store}
  {posted : List Propagator}

/-- The journal does not matter. -/
theorem tracks_journal (h : Tracks e declared posted) (journal : Array Engine.Event) :
    Tracks { e with journal := journal } declared posted :=
  h.of_store_eq rfl rfl h.idle.drained

theorem keeps_post (hp : p.Exact g.declared) :
    Keeps g (onEngine (Running.post p)) fun _ g' => g' = g.post p := by
  intro s hs
  have hpost := (tracks_journal hs.tracks #[]).post hp
  simp only [onEngine]
  generalize Running.post p { s.backend.engine with journal := #[] } = r at hpost
  rcases r with ⟨a, e'⟩ | ⟨f, e'⟩
  · exact ⟨g.post p, g.grows_post p, rfl, ⟨Account.consistent_post hs.consistent hp,
      tracks_journal hpost.1 #[], hpost.2.trans hs.objective_eq, hs.next_eq, hs.views_iff⟩, rfl⟩
  · trivial

end OnEngine

end FiniteDomain.InProcess
