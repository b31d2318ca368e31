import FiniteDomain.InProcess.Backend
import FiniteDomain.Proofs.InProcess.Posting

/-!
# The answers of the backend

A solve of the backend finds values of the variables that everything posted allows, and the
values of all variables that have a view can be read. If it finds none then no values meet what
was posted; and if it claims to be optimal then no values that do are better.
-/

namespace FiniteDomain.InProcess

open Engine (View Valuation Store Propagator Running Tracks Solved Search Statistics Solves)

variable {g : Account} {s s' : Lowering.State InProcess} {e : Expr} {scope : Scope}
  {τ : VarId → Int} {direction : Direction}

/-! ## Values of variables from values of the engine -/

/-- No two variables of the engine were created for the same variable. -/
theorem Describes.nodup_owners (h : Describes g s) : g.owners.Nodup := by
  rw [List.nodup_iff_injective_getElem]
  rintro ⟨i, hi⟩ ⟨j, hj⟩ (hij : g.owners[i] = g.owners[j])
  have hi' := (h.views_iff g.owners[i] (.ofVar i)).mpr ⟨i, List.getElem?_eq_getElem hi, rfl⟩
  have hj' := (h.views_iff g.owners[i] (.ofVar j)).mpr
    ⟨j, (List.getElem?_eq_getElem hj).trans (congrArg some hij.symm), rfl⟩
  have heq := Option.some.inj (hi'.symm.trans hj')
  simpa [View.ofVar] using heq

/-- Values of variables that give the engine's variables theirs. -/
def Account.extension (g : Account) (a : Valuation) (id : VarId) : Int :=
  if id ∈ g.owners then a (g.owners.idxOf id) else (g.registry.lookup id).domain.lower

theorem Account.respects_extension {a : Valuation} (hg : g.Consistent) (ha : g.declared.Admits a) :
    g.registry.Respects (g.extension a) := by
  intro id _
  rw [extension]
  split
  · next hid =>
    have hlt := List.idxOf_lt_length_of_mem hid
    have howner : g.owners[g.owners.idxOf id]? = some id := by
      rw [List.getElem?_eq_getElem hlt, List.getElem_idxOf hlt]
    exact ((hg.owned _ _ howner).2 _).mp (ha _ (hg.length_owners ▸ hlt))
  · exact Domain.contains_lower _

theorem Account.valuation_extension {a : Valuation} {i : Nat} (hnodup : g.owners.Nodup)
    (hi : i < g.owners.length) : g.valuation (g.extension a) i = a i := by
  rw [valuation, List.getD_eq_getElem _ _ hi, extension, if_pos (List.getElem_mem hi),
    hnodup.idxOf_getElem i hi]

/-- Values that pass everything posted are allowed for the variables. -/
theorem allows_extension {a : Valuation} (h : Describes g s) (ha : g.declared.Admits a)
    (hpasses : ∀ p ∈ g.posted, p.Passes a) : g.Allows (g.extension a) := by
  refine ⟨Account.respects_extension h.consistent ha, fun p hp => ?_⟩
  refine (hpasses p hp).congr fun v hv => ?_
  exact Account.eval_congr h.consistent (h.consistent.exact p hp v hv) fun i hi =>
    (Account.valuation_extension h.nodup_owners hi).symm

/-! ## The objective -/

/-- What setting the objective ends with: the engine has the view of the expression. -/
def Aimed (g : Account) (e : Expr) (direction : Direction) :
    EStateM.Result Stop (Lowering.State InProcess) Unit → Prop
  | .ok _ s => ∃ g' v, Binds g g' ∧ Depicts g' e v ∧
      Describes { g' with objective := some (direction, v) } s
  | .error (.error _) s => ∃ g', g.Grows g' ∧ g'.objective = g.objective ∧ Describes g' s
  | .error .overflow _ => True

theorem aimed_setObjective (hs : Describes g s) (hknown : e.KnownTo g.registry)
    (hplain : e.Plain scope) (direction : Direction) :
    Aimed g e direction (setObjective e direction s) := by
  have hview := keeps_viewOf hknown hplain s hs
  simp only [setObjective, Bind.bind, EStateM.bind]
  generalize viewOf e s = r at hview
  rcases r with ⟨v, s'⟩ | ⟨stop, s'⟩
  · obtain ⟨g', -, -, hs', hbinds, hv⟩ := hview
    refine ⟨g', v, hbinds, hv, ⟨?_, hs'.tracks.setObjective direction hv.exact, rfl, hs'.next_eq,
      hs'.views_iff⟩⟩
    exact ⟨hs'.consistent.length_owners, hs'.consistent.proper, hs'.consistent.exact,
      hs'.consistent.owned⟩
  · cases stop with
    | overflow => trivial
    | error e => exact hview

/-! ## Solving -/

/-- The backend can read the values of all variables that have a view, and no others. -/
def Reading (b : InProcess) (τ : VarId → Int) : Prop :=
  ∀ x : Variable, value b x = (b.views.lookup x.id).map fun _ => τ x.id

/-- The answer of the backend is right. -/
structure Answers (g : Account) (status : Status) (b : InProcess) : Prop where
  optimising_eq : status.optimising = g.objective.isSome
  complete : status.statistics.solutions = 0 → status.statistics.complete = true
  refuted : status.statistics.solutions = 0 → ∀ τ, ¬ g.Meets τ
  found : status.statistics.solutions ≠ 0 → ∃ τ, g.Allows τ ∧ Reading b τ ∧
    ∀ direction v, g.objective = some (direction, v) → ∀ τ', g.Meets τ' →
      ¬ direction.Better (v.eval (g.valuation τ')) (v.eval (g.valuation τ))

/-- What a solve ends with. Only large sums overflow. -/
def Solving (g : Account) (options : SolveOptions) :
    EStateM.Result Stop (Lowering.State InProcess) Status → Prop
  | .ok status s => Describes g s ∧ Answers g status s.backend
  | .error (.error _) s => options.timeLimit.isSome = true ∧ Describes g s
  | .error .overflow _ => ¬ ∀ p ∈ g.posted, p.Small g.declared

/-- Values that meet what was posted are a solution for the engine. -/
theorem solves_of_meets (hg : g.Consistent) (hτ : g.Meets τ) :
    Solves g.declared g.posted (g.valuation τ) :=
  ⟨hg.admits hτ.1, fun p hp => (hτ.2 p hp).2⟩

theorem small_of_meets (hτ : g.Meets τ) : ∀ p ∈ g.posted, p.Small g.declared :=
  fun p hp => (hτ.2 p hp).1

theorem eval_extension {a : Valuation} {v : View} (h : Describes g s) (hv : v.Exact g.declared) :
    v.eval (g.valuation (g.extension a)) = v.eval a :=
  Account.eval_congr h.consistent hv fun _ hi => Account.valuation_extension h.nodup_owners hi

/-- The recorded solution gives the variables that have a view their values. -/
theorem reading_extension {e e' : Engine} {outcome : Statistics} {found : List (Array Int)}
    {values : Array Int} (h : Describes g s) (htracks : Tracks e g.declared g.posted)
    (hsolved : Solved e e' outcome found) (hlast : found.getLast? = some values) {b : InProcess}
    (hsolution : b.engine.solution = e'.solution) (hviews : b.views = s.backend.views) :
    Reading b (g.extension (Engine.valuation values)) := by
  intro x
  rw [value, hviews]
  cases hlookup : s.backend.views.lookup x.id with
  | none => rfl
  | some v =>
      have hreads : Reads g x.id v := (h.views_iff _ _).mp hlookup
      have hexact := (hreads.exact h.consistent).2
      have hvalue := htracks.recalls.solutionValue_eq hsolved hlast hexact
      have heq : b.engine.solutionValue v = e'.solutionValue v := by
        cases v with
        | constant c => rfl
        | affine y negated offset => rw [Engine.solutionValue, Engine.solutionValue, hsolution]
      have hread := hreads.eval (g.extension (Engine.valuation values))
      rw [Option.bind_some, heq, hvalue, Option.map_some, ← hread, eval_extension h hexact]

/-- What the engine answers is an answer of the backend. -/
theorem answers_of_solved {e e' : Engine} {outcome : Statistics} {found : List (Array Int)}
    (h : Describes g s) (htracks : Tracks e g.declared g.posted) (hsolved : Solved e e' outcome found)
    (hobjective : e.objective = g.objective) {b : InProcess}
    (hsolution : b.engine.solution = e'.solution) (hviews : b.views = s.backend.views) :
    Answers g ⟨outcome, g.objective.isSome⟩ b := by
  have hnil : outcome.solutions = 0 ↔ found = [] := by
    rw [hsolved.solutions_eq, List.length_eq_zero_iff]
  obtain ⟨ending, hcomplete, hended⟩ := hsolved.ended
  have hbeaten : ∀ τ, g.Meets τ → ending = .exhausted →
      Engine.Beaten e.objective (Engine.scores e.objective found).getLast? (g.valuation τ) := by
    rintro τ hτ rfl
    exact htracks.recalls.beaten (small_of_meets hτ) (solves_of_meets h.consistent hτ) hended
  refine ⟨rfl, fun hzero => ?_, fun hzero τ hτ => ?_, fun hne => ?_⟩
  · cases ending with
    | exhausted => simpa using hcomplete
    | satisfied =>
        obtain ⟨-, values, hfound⟩ := hended
        cases hfound.symm.trans (hnil.mp hzero)
  · obtain rfl := hnil.mp hzero
    cases ending with
    | exhausted =>
        obtain ⟨_, _, _, hsome, hlast, -⟩ := hbeaten τ hτ rfl
        rw [hsome] at hlast
        cases hlast
    | satisfied =>
        obtain ⟨-, values, hfound⟩ := hended
        cases hfound
  · obtain ⟨values, hlast⟩ : ∃ values, found.getLast? = some values := by
      rw [← Option.ne_none_iff_exists', Ne, List.getLast?_eq_none_iff]
      exact fun hfound => hne (hnil.mpr hfound)
    obtain ⟨-, hadmits, haccepts⟩ := htracks.recalls.accepts hsolved (List.mem_of_getLast? hlast)
    refine ⟨_, allows_extension h hadmits fun p hp => .inl (haccepts p hp),
      reading_extension h htracks hsolved hlast hsolution hviews, fun direction v hobj τ' hτ' => ?_⟩
    have hobj : e.objective = some (direction, v) := hobjective.trans hobj
    cases ending with
    | satisfied => cases hended.1.symm.trans hobj
    | exhausted =>
        obtain ⟨_, _, old, hsome, hbest, hnot⟩ := hbeaten τ' hτ' rfl
        obtain ⟨rfl, rfl⟩ := Prod.mk.inj (Option.some.inj (hobj.symm.trans hsome))
        rw [hobj, Engine.scores, List.getLast?_map, hlast, Option.map_some] at hbest
        rw [eval_extension h (htracks.objective _ _ hobj)]
        exact Option.some.inj hbest ▸ hnot

theorem solve_eq {options : SolveOptions} (hlimit : options.timeLimit = none) :
    solve options s = match onEngine Running.solve s with
      | .ok statistics s' => .ok ⟨statistics, s'.backend.engine.objective.isSome⟩ s'
      | .error e s' => .error e s' := by
  simp only [solve, hlimit, Option.isSome_none, Bool.false_eq_true, if_false, Bind.bind,
    EStateM.bind]
  cases onEngine Running.solve s <;> rfl

/-- A solve answers rightly. -/
theorem solving_solve (h : Describes g s) (options : SolveOptions) :
    Solving g options (solve options s) := by
  cases hlimit : options.timeLimit with
  | some limit =>
      simp only [solve, hlimit, Option.isSome_some, if_true]
      exact ⟨by rw [hlimit]; rfl, h⟩
  | none =>
      have hsolve := (tracks_journal h.tracks #[]).solve
      rw [solve_eq hlimit, onEngine]
      generalize hrun : Running.solve { s.backend.engine with journal := #[] } = r at hsolve
      rcases r with ⟨outcome, e'⟩ | ⟨f, e'⟩
      · obtain ⟨found, hsolved, htracks⟩ := hsolve
        have hobjective : e'.objective = g.objective :=
          (Engine.objective_eq_of_posted hsolved.posted_eq).trans h.objective_eq
        have hanswers := answers_of_solved h (tracks_journal h.tracks #[]) hsolved h.objective_eq
          (b := ⟨{ e' with journal := #[] }, s.backend.views⟩) rfl rfl
        rw [← hobjective] at hanswers
        exact ⟨⟨h.consistent, tracks_journal htracks #[], hobjective, h.next_eq, h.views_iff⟩,
          hanswers⟩
      · exact hsolve.2

end FiniteDomain.InProcess
