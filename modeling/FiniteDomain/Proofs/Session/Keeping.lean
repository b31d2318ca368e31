import FiniteDomain.Proofs.Collection
import FiniteDomain.Proofs.InProcess.Answers
import FiniteDomain.Session.Basic

/-!
# What is known of a session

An account of its backend is right about a session if the variables that the session tracks are
known, and the backend has no objective unless the session has one. Every action of a session
leads from an account to a larger one, unless an intermediate result overflows.
-/

namespace FiniteDomain.Session

open InProcess (Account Posts Imposes Depicts)
open Engine (View)

/-- The account is right about the session. -/
structure Describes (g : Account) (s : Session InProcess) : Prop where
  lowering : InProcess.Describes g s.lowering
  normalizer_eq : s.normalizer = .canonical
  tracked : ∀ x ∈ s.tracked, g.registry.Knows x
  objective : s.objective = none → g.objective = none

/-- The backend has gone on to a larger account. -/
theorem Describes.lowered {g g' : Account} {s : Session InProcess} {lowering} (hs : Describes g s)
    (hle : g.Grows g') (hobj : g'.objective = g.objective)
    (hlowering : InProcess.Describes g' lowering) : Describes g' { s with lowering } where
  lowering := hlowering
  normalizer_eq := hs.normalizer_eq
  tracked := fun x hx => (hs.tracked x hx).mono hle.registry
  objective := fun hnone => hobj.trans (hs.objective hnone)

/-- The objective stays the same. -/
structure SameAim (g g' : Account) (s s' : Session InProcess) : Prop where
  account : g'.objective = g.objective
  session : s'.objective = s.objective

theorem SameAim.refl (g : Account) (s : Session InProcess) : SameAim g g s s := ⟨rfl, rfl⟩

theorem SameAim.trans {g g' g'' : Account} {s s' s'' : Session InProcess} (h : SameAim g g' s s')
    (h' : SameAim g' g'' s' s'') : SameAim g g'' s s'' :=
  ⟨h'.account.trans h.account, h'.session.trans h.session⟩

/-- What an action ends with: the account grows, and the result is right. With an error the
objective is the same. An action that overflows promises nothing. -/
def Outcome {α : Type} (g : Account) (s : Session InProcess)
    (R : α → Account → Session InProcess → Prop) :
    EStateM.Result Stop (Session InProcess) α → Prop
  | .ok a s' => ∃ g', g.Grows g' ∧ Describes g' s' ∧ R a g' s'
  | .error (.error _) s' => ∃ g', g.Grows g' ∧ Describes g' s' ∧ SameAim g g' s s'
  | .error .overflow _ => True

/-- The action keeps an account of the session, and the objective. -/
def Keeps {α : Type} (g : Account) (action : Action InProcess α) (Q : α → Account → Prop) : Prop :=
  ∀ s, Describes g s → Outcome g s (fun a g' s' => SameAim g g' s s' ∧ Q a g') (action s)

section Keeps

variable {α β : Type} {g g' : Account} {action : Action InProcess α} {Q Q' : α → Account → Prop}
  {s : Session InProcess}

/-- An action that keeps an account comes before another one. -/
theorem Keeps.andThen {next : α → Action InProcess β} {R : β → Account → Session InProcess → Prop}
    (h : Keeps g action Q) (hs : Describes g s)
    (hnext : ∀ a g' s', g.Grows g' → Describes g' s' → SameAim g g' s s' → Q a g' →
      Outcome g' s' R (next a s')) : Outcome g s R ((action >>= next) s) := by
  have hfirst := h s hs
  simp only [Bind.bind, EStateM.bind]
  generalize action s = r at hfirst
  rcases r with ⟨a, s'⟩ | ⟨e, s'⟩
  · obtain ⟨g₁, hle₁, hs', hsame, ha⟩ := hfirst
    have hsecond := hnext a g₁ s' hle₁ hs' hsame ha
    simp only
    generalize next a s' = r at hsecond
    rcases r with ⟨b, s''⟩ | ⟨e, s''⟩
    · obtain ⟨g₂, hle₂, hs'', hb⟩ := hsecond
      exact ⟨g₂, hle₁.trans hle₂, hs'', hb⟩
    · cases e with
      | overflow => trivial
      | error e =>
          obtain ⟨g₂, hle₂, hs'', hsame'⟩ := hsecond
          exact ⟨g₂, hle₁.trans hle₂, hs'', hsame.trans hsame'⟩
  · cases e with
    | overflow => trivial
    | error e => exact hfirst

theorem Outcome.weaken {R R' : α → Account → Session InProcess → Prop} {r}
    (h : Outcome g s R r)
    (himp : ∀ a g' s', g.Grows g' → Describes g' s' → R a g' s' → R' a g' s') :
    Outcome g s R' r := by
  rcases r with ⟨a, s'⟩ | ⟨e, s'⟩
  · obtain ⟨g₁, hle₁, hs', ha⟩ := h
    exact ⟨g₁, hle₁, hs', himp a g₁ s' hle₁ hs' ha⟩
  · cases e with
    | overflow => trivial
    | error e => exact h

theorem Keeps.bind {next : α → Action InProcess β} {Q' : β → Account → Prop} (h : Keeps g action Q)
    (hnext : ∀ a g', g.Grows g' → g'.Consistent → Q a g' → Keeps g' (next a) Q') :
    Keeps g (action >>= next) Q' :=
  fun _ hs => h.andThen hs fun a g' s' hle hs' hsame ha =>
    (hnext a g' hle hs'.lowering.consistent ha s' hs').weaken fun _ _ _ _ _ hb =>
      ⟨hsame.trans hb.1, hb.2⟩

/-- What keeps an account of the backend keeps one of the session. -/
theorem Keeps.onBackend {action : InProcess.Action α} (h : InProcess.Keeps g action Q) :
    Keeps g (onBackend action) Q := by
  intro s hs
  have haction := h s.lowering hs.lowering
  simp only [Session.onBackend]
  generalize action s.lowering = r at haction
  rcases r with ⟨a, lowering⟩ | ⟨e, lowering⟩
  · obtain ⟨g', hle, hobj, hlowering, ha⟩ := haction
    exact ⟨g', hle, hs.lowered hle hobj hlowering, ⟨hobj, rfl⟩, ha⟩
  · cases e with
    | overflow => trivial
    | error e =>
        obtain ⟨g', hle, hobj, hlowering⟩ := haction
        exact ⟨g', hle, hs.lowered hle hobj hlowering, hobj, rfl⟩

theorem Keeps.note {event : Event} : Keeps g (note event) fun _ g' => g' = g :=
  .onBackend .note

theorem Keeps.track {xs : List Variable} (hxs : ∀ x ∈ xs, g.registry.Knows x) :
    Keeps g (track xs) fun _ g' => g' = g := by
  intro s hs
  exact ⟨g, .refl g, ⟨hs.lowering, hs.normalizer_eq,
    fun x hx => (mem_foldl_addTo hx).elim (hs.tracked x) (hxs x), hs.objective⟩, ⟨rfl, rfl⟩, rfl⟩

end Keeps

/-! ## Posting -/

section Posting

variable {g : Account} {c : Constraint} {scope : Scope}

/-- A session posts a constraint as its backend does. -/
theorem Keeps.post {Q : Unit → Account → Prop} (hknown : c.KnownTo g.registry)
    (h : InProcess.Keeps g (InProcess.post c) Q) : Keeps g (post c) Q := by
  have hvars : ∀ x ∈ c.vars, g.registry.Knows x := fun x hx => hknown x (mem_of_collected hx)
  refine (Keeps.track hvars).bind fun _ g' _ _ heq => ?_
  subst heq
  refine Keeps.note.bind fun _ g' _ _ heq => ?_
  subst heq
  exact .onBackend h

theorem keeps_post (hknown : c.KnownTo g.registry) (hplain : c.Plain scope) :
    Keeps g (post c) fun _ g' => Posts scope g g' c :=
  .post hknown (InProcess.keeps_post_constraint hknown hplain)

/-- A constraint with a propagator of its own is small. -/
theorem keeps_post_of_direct (hc : InProcess.IsDirect c) (hknown : c.KnownTo g.registry)
    (hplain : c.Plain scope) :
    Keeps g (post c) fun _ g' => Posts scope g g' c ∧ (g.Small → g'.Small) := by
  intro s hs
  have hg := hs.lowering.consistent
  exact Keeps.post hknown ((InProcess.keeps_post_of_direct hc hknown hplain).weaken
    fun _ _ _ _ h => ⟨h.posts hg, h.small hg⟩) s hs

theorem forM_post_singleton : ([c].forM post : Action InProcess Unit) = post c := by
  funext s
  simp only [List.forM_eq_forM, List.forM_cons, List.forM_nil, Bind.bind, EStateM.bind]
  cases post c s <;> rfl

/-- A canonical session adds a constraint by posting it. -/
theorem add_eq {s : Session InProcess} (h : s.normalizer = .canonical) : add c s = post c s := by
  obtain ⟨lowering, normalizer, tracked, objective, status, values, objectiveValue, runtime⟩ := s
  subst h
  rw [← forM_post_singleton]
  rfl

theorem keeps_add (hknown : c.KnownTo g.registry) (hplain : c.Plain scope) :
    Keeps g (add c) fun _ g' => Posts scope g g' c := by
  intro s hs
  rw [add_eq hs.normalizer_eq]
  exact keeps_post hknown hplain s hs

end Posting

/-! ## The objective -/

section Objective

variable {g g' g₁ g₂ : Account} {e objective : Expr} {direction : Direction} {scope : Scope}

/-- Hands an expression to the backend, as the objective that the session keeps. -/
def aim (e objective : Expr) (direction : Direction) : Action InProcess Unit := do
  onBackend (InProcess.setObjective e direction)
  note (.objectiveSet direction objective)
  modify fun s => { s with objective := some (objective, direction) }

variable {s : Session InProcess}

/-- The engine optimises a view of the expression. -/
theorem outcome_aim (hs : Describes g s) (hknown : e.KnownTo g.registry) (hplain : e.Plain scope) :
    Outcome g s (fun _ g' s' => s'.objective = some (objective, direction) ∧
      ∃ g₁ v, InProcess.Binds g g₁ ∧ g₁.Consistent ∧ Depicts g₁ e v ∧
        g' = { g₁ with objective := some (direction, v) }) (aim e objective direction s) := by
  have haimed := InProcess.aimed_setObjective hs.lowering hknown hplain direction
  simp only [aim, Bind.bind, EStateM.bind, onBackend]
  generalize InProcess.setObjective e direction s.lowering = r at haimed
  rcases r with ⟨_, lowering⟩ | ⟨stop, lowering⟩
  · obtain ⟨g', v, hbinds, hv, hlowering⟩ := haimed
    have hg' := hlowering.consistent
    refine ⟨{ g' with objective := some (direction, v) }, ?_, ⟨?_, hs.normalizer_eq, ?_, ?_⟩,
      rfl, g', v, hbinds, ⟨hg'.length_owners, hg'.proper, hg'.exact, hg'.owned⟩, hv, rfl⟩
    · exact ⟨hbinds.grows.registry, hbinds.grows.owners, hbinds.grows.declared, hbinds.grows.posted⟩
    · exact ⟨hlowering.consistent, hlowering.tracks, hlowering.objective_eq, hlowering.next_eq,
        hlowering.views_iff⟩
    · exact fun x hx => (hs.tracked x hx).mono hbinds.grows.registry
    · exact fun hnone => by cases hnone
  · cases stop with
    | overflow => trivial
    | error e =>
        obtain ⟨g', hle, hobj, hlowering⟩ := haimed
        exact ⟨g', hle, hs.lowered hle hobj hlowering, hobj, rfl⟩

/-- The engine optimises a view that has the value of the expression, where it has one. -/
def Optimises (g : Account) (e : Expr) (direction : Direction) : Prop :=
  ∃ v, g.objective = some (direction, v) ∧
    ∀ τ, g.Allows τ → ∀ w, e.evaluate (total τ) = .ok w → v.eval (g.valuation τ) = w

theorem Optimises.mono (h : Optimises g e direction) (hs : Describes g s) (hle : g.Grows g')
    (hobjective : g'.objective = g.objective) : Optimises g' e direction := by
  obtain ⟨v, hv, heval⟩ := h
  have hg := hs.lowering.consistent
  have hexact := hs.lowering.tracks.objective _ _ (hs.lowering.objective_eq.trans hv)
  refine ⟨v, hobjective.trans hv, fun τ hτ w hw => ?_⟩
  rw [Account.eval_grows hg hle hexact]
  exact heval τ (hτ.of_grows hg hle) w hw

/-- What the engine optimises has the value of the objective. -/
def Aims (scope : Scope) (g g' : Account) (e : Expr) (direction : Direction) : Prop :=
  ∃ v, g'.objective = some (direction, v) ∧
    Imposes scope g g'
      (fun τ => ∀ x, e.evaluate (total τ) = .ok x → v.eval (g'.valuation τ) = x)
      fun τ => ∀ o ∈ e.named, o.Representable τ

theorem Aims.optimises (h : Aims scope g g' e direction) (hscope : scope ≠ .words) :
    Optimises g' e direction := by
  obtain ⟨v, hv, himposes⟩ := h
  exact ⟨v, hv, fun τ hτ => himposes.sound hscope τ hτ⟩

/-- Names the objective, and hands the name to the backend. -/
def aimNamed (objective : Expr) (direction : Direction) : Action InProcess Unit := do
  let p ← onBackend (Lowering.fresh objective.auxiliary)
  post p.2
  track [.int p.1]
  aim (.ofInt p.1) objective direction

theorem setObjective_eq {s : Session InProcess} (h : s.normalizer = .canonical) :
    setObjective objective direction s = (do
      track objective.vars
      if objective.isAtom then aim objective objective direction
      else aimNamed objective direction : Action InProcess Unit) s := by
  obtain ⟨lowering, normalizer, tracked, aimed, status, values, objectiveValue, runtime⟩ := s
  subst h
  have hmaterializes : Backend.materializesObjective InProcess = true := rfl
  cases hatom : objective.isAtom with
  | true =>
      simp only [setObjective, hatom]
      rfl
  | false =>
      simp only [setObjective, hatom, hmaterializes, Bool.not_false, Bool.and_self, if_true,
        Bool.false_eq_true, if_false, aimNamed, ← forM_post_singleton]
      rfl

/-- The engine optimises a view of the expression. -/
theorem aims_of_depicts {v : View} {S C : (VarId → Int) → Prop} (h : Imposes scope g g₁ S C)
    (hbinds : InProcess.Binds g₁ g₂) (hg₁ : g₁.Consistent) (hg₂ : g₂.Consistent)
    (hS : ∀ τ, g₂.registry.Respects τ → S τ →
      ∀ x, e.evaluate (total τ) = .ok x → v.eval (g₂.valuation τ) = x)
    (hC : ∀ τ, (∀ o ∈ e.named, o.Representable τ) → C τ) :
    Aims scope g { g₂ with objective := some (direction, v) } e direction := by
  have himposes := (h.then_binds hbinds hg₁ hg₂).weaken (fun τ hτ => hS τ hτ.1) hC
  exact ⟨v, rfl, himposes.sound, himposes.complete⟩

/-- What setting the objective leads to. -/
def Aimed (scope : Scope) (g : Account) (e : Expr) (direction : Direction) (_ : Unit) (g' : Account)
    (s' : Session InProcess) : Prop :=
  s'.objective = some (e, direction) ∧ Aims scope g g' e direction

/-- An expression that is not an atom is named by a variable that equals it. -/
theorem outcome_aimNamed (hs : Describes g s) (hatom : ¬ e.isAtom) (hknown : e.KnownTo g.registry)
    (hplain : e.Plain scope) :
    Outcome g s (Aimed scope g e direction) (aimNamed e direction s) := by
  have hg := hs.lowering.consistent
  have hencodes := Expr.encodes_auxiliary hatom hknown hplain
  have hx : (g.registry.extend (.int (e.auxiliaryVar g.registry.next))).Knows
      (.int (e.auxiliaryVar g.registry.next)) := Registry.knows_extend rfl
  refine (Keeps.onBackend (.fresh Expr.makes_auxiliary)).andThen hs fun p g₁ s₁ hle₁ hs₁ _ h => ?_
  obtain ⟨_, rfl, rfl, rfl⟩ := h
  refine (keeps_post (hencodes.known _ (List.mem_singleton_self _))
    (hencodes.plain _ (List.mem_singleton_self _))).andThen hs₁ fun _ g₂ s₂ hle₂ hs₂ _ hposts => ?_
  have hnamed := Imposes.of_encodes hencodes hg hle₁.registry
    (hposts.weaken (fun _ _ h => List.forall_mem_singleton.mpr h)
      fun _ h => List.forall_mem_singleton.mp h) hle₂
  have hx := hx.mono hle₂.registry
  refine (Keeps.track (List.forall_mem_singleton.mpr hx)).andThen hs₂ fun _ g₃ s₃ _ hs₃ _ heq => ?_
  subst heq
  have hplainX : (Expr.ofInt (e.auxiliaryVar g.registry.next)).Plain scope := Expr.plain_ofInt _
  refine (outcome_aim hs₃ (Expr.knownTo_ofInt hx) hplainX).weaken ?_
  rintro _ _ _ - - ⟨hobjective, g₄, v, hbinds, hg₄, hv, rfl⟩
  refine ⟨hobjective, aims_of_depicts hnamed hbinds hs₂.lowering.consistent hg₄ ?_ fun _ h => h⟩
  intro τ hτ htraces w hw
  exact Except.ok.inj ((hv.evaluate τ hτ).symm.trans (htraces w hw))

theorem outcome_setObjective (hs : Describes g s) (hknown : e.KnownTo g.registry)
    (hplain : e.Plain scope) :
    Outcome g s (Aimed scope g e direction) (setObjective e direction s) := by
  have hvars : ∀ x ∈ e.vars, g.registry.Knows x := fun x hx => hknown x (mem_of_collected hx)
  rw [setObjective_eq hs.normalizer_eq]
  refine (Keeps.track hvars).andThen hs fun _ g' s' _ hs' _ heq => ?_
  subst heq
  split
  · refine (outcome_aim hs' hknown hplain).weaken ?_
    rintro _ _ _ - - ⟨hobjective, g₁, v, hbinds, hg₁, hv, rfl⟩
    refine ⟨hobjective, aims_of_depicts (.refl scope g') hbinds hs'.lowering.consistent hg₁ ?_
      fun _ _ => trivial⟩
    intro τ hτ _ x hx
    exact Except.ok.inj ((hv.evaluate τ hτ).symm.trans hx)
  · next hatom => exact outcome_aimNamed hs' hatom hknown hplain

end Objective

end FiniteDomain.Session
