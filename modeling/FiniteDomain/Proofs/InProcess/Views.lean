import FiniteDomain.Proofs.InProcess.Account

/-!
# Views of variables

The view of a variable that is met for the first time reads a new variable of the engine, which
may take exactly the values of its domain.
-/

namespace FiniteDomain.InProcess

open Engine (View Valuation Store Propagator Rule Running Tracks ValueSet)

/-! ## Creating views -/

/-- The backend after a variable of the engine was created, up to journals. -/
structure Created (s s' : Lowering.State InProcess) (d : ValueSet) (name : String)
    (views : List (VarId × View)) : Prop where
  engine : ∃ journal, s'.backend.engine =
    { (s.backend.engine.addVariable d name).2 with journal := journal }
  views : s'.backend.views = views
  nextId : s'.nextId = s.nextId

theorem created_createView {create : Engine → Except Engine.Error (View × Engine)}
    {d : ValueSet} {name : String} (hcreate : ∀ e, create e = .ok (e.addVariable d name))
    (s : Lowering.State InProcess) :
    ∃ s', createView create s = .ok (.ofVar s.backend.engine.numVariables) s' ∧
      Created s s' d name s.backend.views := by
  simp only [createView, onEngine, Bind.bind, EStateM.bind, get_apply, hcreate]
  exact ⟨_, rfl, ⟨_, rfl⟩, rfl, rfl⟩

/-- Creates the view of a variable that is met for the first time. -/
def meet (x : Variable) (create : Engine → Except Engine.Error (View × Engine)) :
    Action View := do
  let v ← createView create
  Lowering.note (.viewCreated v x.name)
  Lowering.modifyBackend fun b => { b with views := (x.id, v) :: b.views }
  return v

theorem created_meet {x : Variable} {create : Engine → Except Engine.Error (View × Engine)}
    {d : ValueSet} (hcreate : ∀ e, create e = .ok (e.addVariable d x.name))
    (s : Lowering.State InProcess) :
    ∃ s', meet x create s = .ok (.ofVar s.backend.engine.numVariables) s' ∧
      Created s s' d x.name
        ((x.id, .ofVar s.backend.engine.numVariables) :: s.backend.views) := by
  obtain ⟨s', hrun, ⟨hengine, hviews, hnext⟩⟩ := created_createView hcreate s
  simp only [meet, Bind.bind, EStateM.bind, hrun]
  exact ⟨_, rfl, hengine, congrArg _ hviews, hnext⟩

/-- How the engine creates the variable. -/
def creation : Variable → Engine → Except Engine.Error (View × Engine)
  | .bool x, e => .ok (e.createBoolean x.name)
  | .int ⟨_, name, .interval lower upper _ _⟩, e => e.createInterval lower upper name
  | .int ⟨_, name, .values members _ _ _⟩, e => e.createValues members name

theorem bind_of_unmet {s : Lowering.State InProcess} {x : Variable}
    (h : s.backend.views.lookup x.id = none) : bind x s = meet x (creation x) s := by
  simp only [bind, Bind.bind, EStateM.bind, Lowering.getBackend_apply, h]
  cases x with
  | bool x => rfl
  | int x =>
      obtain ⟨id, name, domain⟩ := x
      cases domain <;> rfl

/-- The engine creates a variable that may take exactly the values of the domain. -/
theorem exists_creation (x : Variable) : ∃ d : ValueSet, d.Proper ∧
    (∀ w, w ∈ d ↔ x.domain.contains w = true) ∧
    ∀ e, creation x e = .ok (e.addVariable d x.name) := by
  cases x with
  | bool x =>
      refine ⟨.interval 0 1, ValueSet.proper_interval (by decide) (by decide) (by decide),
        fun w => ?_, fun e => rfl⟩
      rw [ValueSet.mem_interval, Variable.domain, Domain.contains_boolean]
      omega
  | int x =>
      obtain ⟨id, name, domain⟩ := x
      cases domain with
      | interval lower upper ordered fits =>
          refine ⟨.interval lower upper, ValueSet.proper_interval ordered fits.1 fits.2,
            fun w => ?_, fun e => if_neg (not_lt.mpr ordered)⟩
          rw [ValueSet.mem_interval]
          simp [Variable.domain, Domain.contains]
      | values members nonempty ascending fits =>
          obtain ⟨d, hd⟩ : ∃ d, ValueSet.ofValues? members = some d := by
            rw [← Option.ne_none_iff_exists', Ne, ValueSet.ofValues?_eq_none_iff]
            exact nonempty
          refine ⟨d, ValueSet.proper_ofValues? hd fits, fun w => ?_, fun e => ?_⟩
          · rw [ValueSet.mem_ofValues? hd]
            simp [Variable.domain, Domain.contains]
          · rw [creation, Engine.createValues, hd]
            rfl

/-- A variable that is met for the first time gets a variable of the engine for its domain. -/
theorem exists_created (x : Variable) : ∃ d : ValueSet, d.Proper ∧
    (∀ w, w ∈ d ↔ x.domain.contains w = true) ∧
    ∀ s : Lowering.State InProcess, s.backend.views.lookup x.id = none →
      ∃ s', bind x s = .ok (.ofVar s.backend.engine.numVariables) s' ∧
        Created s s' d x.name
          ((x.id, .ofVar s.backend.engine.numVariables) :: s.backend.views) := by
  obtain ⟨d, hd, hmem, hcreation⟩ := exists_creation x
  refine ⟨d, hd, hmem, fun s hs => ?_⟩
  rw [bind_of_unmet hs]
  exact created_meet hcreation s

/-! ## Meeting variables -/

/-- Only variables of the engine are new. -/
structure Binds (g g' : Account) : Prop where
  grows : g.Grows g'
  registry_eq : g'.registry = g.registry
  posted_eq : g'.posted = g.posted

theorem Binds.refl (g : Account) : Binds g g := ⟨.refl g, rfl, rfl⟩

theorem Binds.trans {g g' g'' : Account} (h : Binds g g') (h' : Binds g' g'') : Binds g g'' where
  grows := h.grows.trans h'.grows
  registry_eq := h'.registry_eq.trans h.registry_eq
  posted_eq := h'.posted_eq.trans h.posted_eq

/-- The view reads the engine's variable for the variable of this number. -/
def Reads (g : Account) (id : VarId) (v : View) : Prop :=
  ∃ i, g.owners[i]? = some id ∧ v = View.ofVar i

variable {g g' : Account} {x : Variable} {v : View} {τ : VarId → Int}

theorem lookup_own {views : List (VarId × View)} {d : ValueSet}
    (hviews : ∀ id v, views.lookup id = some v ↔ Reads g id v) (hnone : views.lookup x.id = none)
    (id : VarId) (v : View) :
    List.lookup id ((x.id, View.ofVar g.owners.length) :: views) = some v ↔
      Reads (g.own x.id d) id v := by
  have hsplit : Reads (g.own x.id d) id v ↔
      Reads g id v ∨ id = x.id ∧ v = View.ofVar g.owners.length := by
    simp only [Reads, Account.own, List.getElem?_append]
    constructor
    · rintro ⟨i, hi, rfl⟩
      split at hi
      · exact .inl ⟨i, hi, rfl⟩
      · next hge =>
        rw [List.getElem?_singleton] at hi
        split at hi
        · next hzero =>
          obtain rfl : i = g.owners.length :=
            Nat.le_antisymm (Nat.sub_eq_zero_iff_le.mp hzero) (not_lt.mp hge)
          exact .inr ⟨(Option.some.inj hi).symm, rfl⟩
        · cases hi
    · rintro (⟨i, hi, rfl⟩ | ⟨rfl, rfl⟩)
      · have hlt := (List.getElem?_eq_some_iff.mp hi).1
        exact ⟨i, by rw [if_pos hlt, hi], rfl⟩
      · exact ⟨g.owners.length, by simp, rfl⟩
  rw [hsplit, ← hviews]
  by_cases h : id = x.id
  · subst h
    simp [List.lookup_cons_self, hnone, eq_comm]
  · rw [List.lookup_cons, beq_false_of_ne h]
    simp [h]

/-- The view of a known variable reads the variable of the engine that was created for it. -/
theorem keeps_bind (hx : g.registry.Knows x) :
    Keeps g (bind x) fun v g' => Binds g g' ∧ Reads g' x.id v := by
  intro s hs
  cases hlookup : s.backend.views.lookup x.id with
  | some v =>
      have hrun : bind x s = .ok v s := by
        simp only [bind, Bind.bind, EStateM.bind, Lowering.getBackend_apply, hlookup]
        rfl
      rw [hrun]
      exact ⟨g, .refl g, rfl, hs, .refl g, (hs.views_iff _ _).mp hlookup⟩
  | none =>
      obtain ⟨d, hd, hmem, hcreated⟩ := exists_created x
      obtain ⟨s', hrun, ⟨⟨journal, hengine⟩, hviews, hnext⟩⟩ := hcreated s hlookup
      have hlength : s.backend.engine.numVariables = g.owners.length :=
        (Engine.Store.numVariables_eq_of_le hs.tracks.le).trans hs.consistent.length_owners.symm
      have htracks := hs.tracks.addVariable hd x.name
      have hreads := lookup_own (d := d) hs.views_iff hlookup
      rw [hrun]
      refine ⟨g.own x.id d, g.grows_own _ _, rfl,
        ⟨Account.consistent_own hs.consistent hd hx.1 fun w => ?_, ?_, ?_, hnext.trans hs.next_eq, ?_⟩,
        ⟨g.grows_own _ _, rfl, rfl⟩, ?_⟩
      · rw [hmem, hx.2]
      · rw [hengine]
        exact tracks_journal htracks journal
      · rw [hengine]
        exact hs.objective_eq
      · rw [hviews, hlength]
        exact hreads
      · rw [hlength]
        exact (hreads _ _).mp (List.lookup_cons_self ..)

/-! ## Atoms -/

/-- The view is a constant, or shifts a variable by at most 1. -/
def Simple : View → Prop
  | .constant _ => True
  | .affine _ _ offset => offset = 0 ∨ offset = 1

variable {s : Store} {a : Valuation}

/-- The negation of a simple view is exact. -/
theorem Simple.exact_negate (h : Simple v) (hs : s.Proper) (hv : v.Exact s) :
    v.negate.Exact s := by
  cases v with
  | constant c => exact Word.fits_clamp (by decide) _
  | affine x negated offset =>
      refine ⟨hv.1, fun w hw => ?_⟩
      have hfits := (hs x hv.1).fits hw
      have hoffset : word64.clamp (-offset) = -offset := by
        apply Word.clamp_of_fits
        rcases h with rfl | rfl <;> decide
      rw [hoffset, View.raw_affine]
      simp only [Word.Fits, word32, word64] at hfits ⊢
      rcases h with rfl | rfl <;> cases negated <;> simp <;> omega

theorem Simple.eval_negate (h : Simple v) (hfits : word64.Fits (v.eval a))
    (hmin : v.eval a ≠ word64.min) : v.negate.eval a = -v.eval a := by
  cases v with
  | constant c =>
      apply Word.clamp_of_fits
      simp only [View.eval_constant, Word.Fits, word64] at hfits hmin ⊢
      omega
  | affine x negated offset =>
      have hoffset : word64.clamp (-offset) = -offset := by
        apply Word.clamp_of_fits
        rcases h with rfl | rfl <;> decide
      rw [View.negate, hoffset, View.eval_affine, View.eval_affine]
      cases negated <;> simp [View.raw_affine] <;> omega

/-- A simple view of a variable stays close to the 32-bit range. -/
theorem Simple.abs_eval_le (h : Simple v) (hs : s.Proper) (hv : v.Exact s) (ha : s.Admits a)
    (hconstant : ∀ c, v ≠ .constant c) : |v.eval a| ≤ 2 ^ 31 + 1 := by
  cases v with
  | constant c => exact absurd rfl (hconstant c)
  | affine x negated offset =>
      have hfits := (hs x hv.1).fits (ha x hv.1)
      rw [View.eval_affine, View.raw_affine, abs_le]
      simp only [Word.Fits, word32] at hfits
      rcases h with rfl | rfl <;> cases negated <;> simp <;> omega

/-- The view has the value of the expression, which is an atom. -/
structure Depicts (g : Account) (e : Expr) (v : View) : Prop where
  isAtom : e.isAtom = true
  known : e.KnownTo g.registry
  simple : Simple v
  exact : v.Exact g.declared
  evaluate : ∀ τ, g.registry.Respects τ → e.evaluate (total τ) = .ok (v.eval (g.valuation τ))
  bit : e.isBool = true → ∀ b, g.declared.Admits b → v.eval b = 0 ∨ v.eval b = 1

variable {e : Expr} {c : Constraint} {scope : Scope}

theorem Depicts.mono (h : Depicts g e v) (hg : g.Consistent) (hle : g.Grows g') :
    Depicts g' e v where
  isAtom := h.isAtom
  known := h.known.mono hle.registry
  simple := h.simple
  exact := h.exact.extend hle.declared
  evaluate := fun τ hτ => by
    rw [Account.eval_grows hg hle h.exact]
    exact h.evaluate τ (hτ.mono hle.registry)
  bit := fun he b hb => h.bit he b (hle.declared.admits hb)

theorem Depicts.admits_eval (h : Depicts g e v) (hplain : e.Plain scope)
    (hτ : g.registry.Respects τ) : scope.Admits (v.eval (g.valuation τ)) := by
  obtain ⟨a, rfl⟩ := Expr.isAtom_iff.mp h.isAtom
  have heval : (Expr.atom a).evaluate (total τ) = .ok (a.value τ) :=
    Atom.evaluate_total hτ h.known
  rw [← Except.ok.inj (heval.symm.trans (h.evaluate τ hτ))]
  exact Atom.admits_value hτ h.known hplain.1

theorem Depicts.eval_negate (h : Depicts g e v) (hplain : e.Plain scope)
    (hscope : scope ≠ .words) (hτ : g.registry.Respects τ) :
    v.negate.eval (g.valuation τ) = -v.eval (g.valuation τ) := by
  obtain ⟨hfits, hmin⟩ := h.admits_eval hplain hτ
  exact h.simple.eval_negate hfits (hmin hscope)

/-- The engine's variable for a variable has its value. -/
theorem Reads.eval {id : VarId} (h : Reads g id v) (τ : VarId → Int) :
    v.eval (g.valuation τ) = τ id := by
  obtain ⟨i, hi, rfl⟩ := h
  rw [View.eval_ofVar, Account.valuation, List.getD_eq_getElem?_getD, hi]
  rfl

theorem Reads.exact {id : VarId} (h : Reads g id v) (hg : g.Consistent) :
    Simple v ∧ v.Exact g.declared := by
  obtain ⟨i, hi, rfl⟩ := h
  refine ⟨.inl rfl, View.exact_ofVar hg.proper ?_⟩
  rw [← hg.length_owners]
  exact (List.getElem?_eq_some_iff.mp hi).1

theorem Reads.bit {x : BoolVar} (h : Reads g x.id v) (hg : g.Consistent)
    (hx : g.registry.Knows (.bool x)) (hb : g.declared.Admits a) :
    v.eval a = 0 ∨ v.eval a = 1 := by
  obtain ⟨-, hexact⟩ := h.exact hg
  obtain ⟨i, hi, rfl⟩ := h
  obtain ⟨-, hmem⟩ := hg.owned i _ hi
  have hcontains := (hmem _).mp (hb i hexact.1)
  rw [show g.registry.lookup x.id = .bool x from hx.2] at hcontains
  simpa using Domain.contains_boolean.mp hcontains

theorem Reads.simple_complement (h : Reads g x.id v) : Simple v.complement := by
  obtain ⟨i, hi, rfl⟩ := h
  exact .inr (by decide)

theorem depicts_ofInt {x : IntVar} (hg : g.Consistent) (hx : g.registry.Knows (.int x))
    (h : Reads g x.id v) : Depicts g (.atom (.int x)) v := by
  have hknown : ∀ y ∈ (Atom.int x).vars, g.registry.Knows y := by simpa [Atom.vars] using hx
  obtain ⟨hsimple, hexact⟩ := h.exact hg
  refine ⟨rfl, hknown, hsimple, hexact, fun τ hτ => ?_, fun hbool => by cases hbool⟩
  exact (Atom.evaluate_total hτ hknown).trans (congrArg Except.ok (h.eval τ).symm)

/-- A negated literal has the complement of the view of its variable. -/
theorem depicts_ofLiteral {l : Literal} (hg : g.Consistent) (hx : g.registry.Knows (.bool l.var))
    (h : Reads g l.var.id v) :
    Depicts g (.atom (.literal l)) (if l.negated then v.complement else v) := by
  have hknown : ∀ y ∈ (Atom.literal l).vars, g.registry.Knows y := by simpa [Atom.vars] using hx
  have hbit : ∀ b, g.declared.Admits b → v.eval b = 0 ∨ v.eval b = 1 := fun b hb => h.bit hg hx hb
  obtain ⟨hsimple, hexact⟩ := h.exact hg
  obtain ⟨hexact', hcomplement⟩ := View.exact_complement hg.proper hexact hbit
  cases hneg : l.negated with
  | false =>
      refine ⟨rfl, hknown, hsimple, hexact, fun τ hτ => ?_, fun _ => hbit⟩
      refine (Atom.evaluate_total hτ hknown).trans (congrArg Except.ok ?_)
      rw [Atom.value, hneg]
      exact (h.eval τ).symm
  | true =>
      have hsimple' : Simple v.complement := Reads.simple_complement (x := .bool l.var) h
      refine ⟨rfl, hknown, hsimple', hexact', fun τ hτ => ?_, fun _ b hb => ?_⟩
      · refine (Atom.evaluate_total hτ hknown).trans (congrArg Except.ok ?_)
        rw [Atom.value, hneg, if_pos rfl, if_pos rfl, hcomplement _ (hg.admits hτ), h.eval]
      · rw [if_pos rfl, hcomplement b hb]
        have := hbit b hb
        omega

/-- The view of an atom depicts it. -/
theorem keeps_viewOfAtom {a : Atom} (hknown : ∀ x ∈ a.vars, g.registry.Knows x)
    (hplain : a.Plain scope) :
    Keeps g (viewOfAtom a) fun v g' => Binds g g' ∧ Depicts g' (.atom a) v := by
  cases a with
  | int x =>
      have hx := hknown (.int x) (by simp [Atom.vars])
      refine (keeps_bind hx).weaken fun v g' _ hg' h => ?_
      exact ⟨h.1, depicts_ofInt hg' (h.1.registry_eq ▸ hx) h.2⟩
  | literal l =>
      have hx := hknown (.bool l.var) (by simp [Atom.vars])
      refine (keeps_bind hx).bind fun v g' _ hg' h => Keeps.pure fun _ => ?_
      exact ⟨h.1, depicts_ofLiteral hg' (h.1.registry_eq ▸ hx) h.2⟩
  | constant value =>
      exact Keeps.pure fun _ =>
        ⟨.refl g, rfl, hknown, trivial, hplain.1, fun τ _ => rfl, fun hbool => by cases hbool⟩
  | bool value =>
      have hfits : ∀ value : Bool, word64.Fits value.toInt := by decide
      have hbit : ∀ value : Bool, value.toInt = 0 ∨ value.toInt = 1 := by decide
      exact Keeps.pure fun _ => ⟨.refl g, rfl, hknown, trivial, hfits value, fun τ _ => rfl,
        fun _ _ _ => hbit value⟩

/-- The view has the truth value of the constraint, which is an atom. -/
def Signals (g : Account) (c : Constraint) (v : View) : Prop :=
  ∃ a, c.asAtom? = some a ∧ Depicts g (.atom a) v

theorem Signals.mono (h : Signals g c v) (hg : g.Consistent) (hle : g.Grows g') :
    Signals g' c v := by
  obtain ⟨a, ha, h⟩ := h
  exact ⟨a, ha, h.mono hg hle⟩

theorem Signals.evaluate (h : Signals g c v) (hknown : c.KnownTo g.registry)
    (hτ : g.registry.Respects τ) :
    c.evaluate (total τ) = .ok (v.eval (g.valuation τ) != 0) := by
  obtain ⟨a, ha, h⟩ := h
  have heval : (Expr.atom a).evaluate (total τ) = .ok (a.value τ) :=
    Atom.evaluate_total hτ h.known
  rw [Constraint.evaluate_asAtom ha hτ hknown,
    Except.ok.inj (heval.symm.trans (h.evaluate τ hτ))]

theorem Signals.bit (h : Signals g c v) (hb : g.declared.Admits a) :
    v.eval a = 0 ∨ v.eval a = 1 := by
  obtain ⟨atom, hatom, h⟩ := h
  refine h.bit ?_ a hb
  cases c with
  | literal l =>
      obtain rfl := Option.some.inj hatom
      rfl
  | constant value =>
      obtain rfl := Option.some.inj hatom
      rfl
  | _ => cases hatom

theorem Signals.exact (h : Signals g c v) : v.Exact g.declared := by
  obtain ⟨a, -, h⟩ := h
  exact h.exact

theorem keeps_viewOf (hknown : e.KnownTo g.registry) (hplain : e.Plain scope) :
    Keeps g (viewOf e) fun v g' => Binds g g' ∧ Depicts g' e v := by
  cases e with
  | atom a => exact keeps_viewOfAtom hknown hplain.1
  | _ => exact Keeps.refuse

theorem plain_asAtom {a : Atom} (ha : c.asAtom? = some a) : a.Plain scope := by
  cases c with
  | literal l =>
      obtain rfl := Option.some.inj ha
      trivial
  | constant value =>
      obtain rfl := Option.some.inj ha
      trivial
  | _ => cases ha

theorem keeps_literalOf (hknown : c.KnownTo g.registry) :
    Keeps g (literalOf c) fun v g' => Binds g g' ∧ Signals g' c v := by
  rw [literalOf]
  cases ha : c.asAtom? with
  | none => exact Keeps.refuse
  | some a =>
      have hvars : ∀ x ∈ a.vars, g.registry.Knows x := knownTo_asAtom ha hknown
      have hplain : a.Plain .words := plain_asAtom ha
      exact (keeps_viewOfAtom hvars hplain).weaken fun v g' _ _ h => ⟨h.1, a, ha, h.2⟩

/-! ## Lists of atoms -/

/-- Views that are created one after the other stay right. -/
theorem keeps_mapM {α : Type} {f : α → Action View} {R : Account → α → View → Prop} {as : List α}
    (hmono : ∀ {g g' a v}, R g a v → g.Consistent → g.Grows g' → R g' a v)
    (hf : ∀ a ∈ as, ∀ g', Binds g g' → Keeps g' (f a) fun v g'' => Binds g' g'' ∧ R g'' a v) :
    Keeps g (as.mapM f) fun vs g' => Binds g g' ∧ List.Forall₂ (R g') as vs := by
  induction as generalizing g with
  | nil => exact Keeps.pure fun _ => ⟨.refl g, .nil⟩
  | cons a as ih =>
      rw [List.mapM_cons]
      refine (hf a List.mem_cons_self g (.refl g)).bind fun v g₁ _ hg₁ hv => ?_
      have hrest := ih (g := g₁) fun b hb g' hg' =>
        hf b (List.mem_cons_of_mem _ hb) g' (hv.1.trans hg')
      refine hrest.bind fun vs g₂ hle₂ _ hvs => Keeps.pure fun _ => ?_
      exact ⟨hv.1.trans hvs.1, .cons (hmono hv.2 hg₁ hle₂) hvs.2⟩

theorem keeps_viewsOf {es : List Expr} (hknown : ∀ e ∈ es, e.KnownTo g.registry)
    (hplain : ∀ e ∈ es, e.Plain scope) :
    Keeps g (es.mapM viewOf) fun vs g' => Binds g g' ∧ List.Forall₂ (Depicts g') es vs :=
  keeps_mapM Depicts.mono fun e he _ hg' =>
    keeps_viewOf (hg'.registry_eq ▸ hknown e he) (hplain e he)

theorem keeps_literalsOf {cs : List Constraint} (hknown : ∀ c ∈ cs, c.KnownTo g.registry) :
    Keeps g (cs.mapM literalOf) fun vs g' => Binds g g' ∧ List.Forall₂ (Signals g') cs vs :=
  keeps_mapM Signals.mono fun c hc _ hg' => keeps_literalOf (hg'.registry_eq ▸ hknown c hc)

end FiniteDomain.InProcess
