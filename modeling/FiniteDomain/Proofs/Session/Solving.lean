import FiniteDomain.Proofs.Session.Concluding
import FiniteDomain.Proofs.Session.Keeping

/-!
# What a solve of a session leaves behind

A solve keeps what was posted. If it finds a solution then the kept values are those of the
tracked variables that the engine has met, under values that everything posted allows; and the
kept value of the objective is that of its expression under the kept values.
-/

namespace FiniteDomain

namespace InProcess

variable {g : Account} {s : Lowering.State InProcess} {b : InProcess} {xs : List Variable}
  {τ : VarId → Int}

/-- The values of the variables that the engine has met. -/
def Account.reading (g : Account) (xs : List Variable) (τ : VarId → Int) : List (VarId × Int) :=
  (xs.filter fun x => x.id ∈ g.owners).map fun x => (x.id, τ x.id)

theorem Describes.isSome_lookup_iff (h : Describes g s) (id : VarId) :
    (s.backend.views.lookup id).isSome = true ↔ id ∈ g.owners := by
  rw [Option.isSome_iff_exists, List.mem_iff_getElem?]
  constructor
  · rintro ⟨v, hv⟩
    obtain ⟨i, hi, -⟩ := (h.views_iff id v).mp hv
    exact ⟨i, hi⟩
  · rintro ⟨i, hi⟩
    exact ⟨_, (h.views_iff id _).mpr ⟨i, hi, rfl⟩⟩

/-- Reading the variables that have a view gives the values of those that the engine has met. -/
theorem reading_eq (h : Describes g s) {read : Variable → Option Int}
    (hread : ∀ x, read x = (s.backend.views.lookup x.id).map fun _ => τ x.id)
    (xs : List Variable) :
    (xs.filterMap fun x => (read x).map fun v => (x.id, v)) = g.reading xs τ := by
  induction xs with
  | nil => rfl
  | cons x xs ih =>
      have hmet := h.isSome_lookup_iff x.id
      rw [List.filterMap_cons, ih, hread x, Account.reading, Account.reading, List.filter_cons]
      cases hlookup : s.backend.views.lookup x.id with
      | none =>
          have hmem : x.id ∉ g.owners := by simpa [hlookup] using hmet
          simp [hmem]
      | some v =>
          have hmem : x.id ∈ g.owners := by simpa [hlookup] using hmet
          simp [hmem]

theorem mem_reading_iff {p : VarId × Int} :
    p ∈ g.reading xs τ ↔ ∃ x ∈ xs, x.id ∈ g.owners ∧ p = (x.id, τ x.id) := by
  simp only [Account.reading, List.mem_map, List.mem_filter, decide_eq_true_eq]
  constructor
  · rintro ⟨x, ⟨hx, hmet⟩, rfl⟩
    exact ⟨x, hx, hmet, rfl⟩
  · rintro ⟨x, hx, hmet, rfl⟩
    exact ⟨x, ⟨hx, hmet⟩, rfl⟩

/-- The values of the variables that were met can be looked up. -/
theorem lookup_reading_iff {id : VarId} {v : Int} :
    (g.reading xs τ).lookup id = some v ↔ (∃ x ∈ xs, x.id = id) ∧ id ∈ g.owners ∧ v = τ id := by
  constructor
  · intro h
    obtain ⟨l₁, l₂, heq, -⟩ := List.lookup_eq_some_iff.mp h
    have hmem : (id, v) ∈ g.reading xs τ := heq ▸ by simp
    obtain ⟨x, hx, hmet, heq⟩ := mem_reading_iff.mp hmem
    obtain ⟨rfl, rfl⟩ := Prod.mk.inj heq
    exact ⟨⟨x, hx, rfl⟩, hmet, rfl⟩
  · rintro ⟨⟨x, hx, rfl⟩, hmet, rfl⟩
    have hmem : (x.id, τ x.id) ∈ g.reading xs τ := mem_reading_iff.mpr ⟨x, hx, hmet, rfl⟩
    cases hlookup : (g.reading xs τ).lookup x.id with
    | none => simpa using List.lookup_eq_none_iff.mp hlookup _ hmem
    | some w =>
        obtain ⟨l₁, l₂, heq, -⟩ := List.lookup_eq_some_iff.mp hlookup
        have hmem : (x.id, w) ∈ g.reading xs τ := heq ▸ by simp
        obtain ⟨y, -, -, heq⟩ := mem_reading_iff.mp hmem
        obtain ⟨hid, rfl⟩ := Prod.mk.inj heq
        rw [hid]

/-- Variables are read alike if those that were met have the same values. -/
theorem reading_eq_iff {τ' : VarId → Int} : g.reading xs τ' = g.reading xs τ ↔
    ∀ x ∈ xs, x.id ∈ g.owners → τ' x.id = τ x.id := by
  simp [Account.reading, List.map_inj_left]

theorem reading_of_agree {τ' : VarId → Int} (hg : g.Consistent)
    (hagree : Agree g.registry.next τ τ') : g.reading xs τ' = g.reading xs τ := by
  refine reading_eq_iff.mpr fun x _ hmet => ?_
  obtain ⟨i, hi⟩ := List.mem_iff_getElem?.mp hmet
  exact hagree x.id (hg.owned i _ hi).1

end InProcess

namespace Session

open InProcess (Account Status)

variable {g : Account} {s s' : Session InProcess} {options : SolveOptions}

/-! ## Solving -/

/-- What a solve leaves behind. -/
structure Concludes (g : Account) (s s' : Session InProcess) (found : Bool) : Prop where
  describes : Describes g s'
  tracked_eq : s'.tracked = s.tracked
  objective_eq : s'.objective = s.objective
  found_eq : found = s'.status.hasSolution
  decided : found = false → s'.status = .unsatisfiable
  refuted : found = false → ∀ τ, ¬ g.Meets τ
  unvalued : found = false → s'.objectiveValue = none
  solution : found = true → ∃ τ, g.Allows τ ∧ s'.values = g.reading s.tracked τ ∧
    ∀ direction v, g.objective = some (direction, v) → ∀ τ', g.Meets τ' →
      ¬ direction.Better (v.eval (g.valuation τ')) (v.eval (g.valuation τ))
  reading : found = true → ∃ τ, g.Allows τ ∧ s'.values = g.reading s.tracked τ ∧
    InProcess.Reading s'.lowering.backend τ
  objectiveValue : ∀ w, s'.objectiveValue = some w →
    ∃ e direction, s'.objective = some (e, direction) ∧ e.evaluate s'.value = .ok w

/-- What a solve ends with. A time limit is an error; without an objective only large sums
overflow. -/
def Solving (g : Account) (options : SolveOptions) (s : Session InProcess) :
    EStateM.Result Stop (Session InProcess) Bool → Prop
  | .ok found s' => Concludes g s s' found
  | .error (.error _) s' => options.timeLimit.isSome = true ∧ Describes g s' ∧
      s'.objective = s.objective
  | .error .overflow _ => s.objective = none → ¬ ∀ p ∈ g.posted, p.Small g.declared

/-- The engine's status is always one of the session. -/
theorem solve_inProcess (options : SolveOptions) (s : Session InProcess) :
    solve options s = match InProcess.solve options s.lowering with
      | .ok status lowering =>
          conclude status.unify { s.cleared with lowering, runtime := some .measured }
      | .error e lowering => .error e { s.cleared with lowering, status := .error } := by
  have hsolve : (Backend.solve options : Lowering InProcess Status) s.lowering =
    InProcess.solve options s.lowering := rfl
  rw [solve_eq, hsolve]
  cases InProcess.solve options s.lowering <;> rfl

/-- The status of the backend says whether there is a solution. -/
theorem unify_eq {status : Status} {b : InProcess} (h : InProcess.Answers g status b) :
    status.unify.hasSolution = decide (status.statistics.solutions ≠ 0) ∧
      (status.statistics.solutions = 0 → status.unify = .unsatisfiable) := by
  by_cases hzero : status.statistics.solutions = 0
  · have hunify : status.unify = .unsatisfiable := by
      rw [InProcess.Status.unify, if_pos hzero, if_pos (h.complete hzero)]
    exact ⟨by rw [hunify]; simp [hzero, SolverStatus.hasSolution], fun _ => hunify⟩
  · refine ⟨?_, fun h => absurd h hzero⟩
    rw [InProcess.Status.unify, if_neg hzero]
    split <;> simp [hzero, SolverStatus.hasSolution]

/-- The journal of a session does not matter. -/
theorem Describes.journal {g : Account} {s : Session InProcess} (h : Describes g s)
    (journal : Array Event) {s' : Session InProcess} (htracked : s'.tracked = s.tracked)
    (hlowering : s'.lowering = { s.lowering with journal }) (hnormalizer : s'.normalizer = s.normalizer)
    (hobjective : s'.objective = s.objective) : Describes g s' := by
  refine ⟨?_, hnormalizer.trans h.normalizer_eq, htracked ▸ h.tracked, hobjective ▸ h.objective⟩
  rw [hlowering]
  exact ⟨h.lowering.consistent, h.lowering.tracks, h.lowering.objective_eq, h.lowering.next_eq,
    h.lowering.views_iff⟩

/-- What the backend answered is kept. -/
theorem solving_conclude {status : Status} {s₁ : Session InProcess} (hs : Describes g s₁)
    (hanswers : InProcess.Answers g status s₁.lowering.backend) (htracked : s₁.tracked = s.tracked)
    (hobjective : s₁.objective = s.objective) (hempty : s₁.values = [])
    (hnone : s₁.objectiveValue = none) : Solving g options s (conclude status.unify s₁) := by
  obtain ⟨hfound, hunsatisfiable⟩ := unify_eq hanswers
  by_cases hzero : status.statistics.solutions = 0
  · have hunify := hunsatisfiable hzero
    rw [hunify]
    exact {
      describes := hs.journal _ rfl rfl rfl rfl
      tracked_eq := htracked
      objective_eq := hobjective
      found_eq := rfl
      decided := fun _ => rfl
      refuted := fun _ => hanswers.refuted hzero
      unvalued := fun _ => hnone
      solution := fun h => by cases h
      reading := fun h => by cases h
      objectiveValue := fun w hw => by cases hnone.symm.trans hw }
  · obtain ⟨τ, hτ, hreading, hoptimal⟩ := hanswers.found hzero
    have hsolution : status.unify.hasSolution = true := by simpa [hzero] using hfound
    have hvalues : readings s₁.lowering.backend s₁.tracked = g.reading s.tracked τ :=
      htracked ▸ InProcess.reading_eq hs.lowering hreading _
    obtain ⟨journal, hconclude⟩ := conclude_of_found hsolution s₁ hempty
    rw [hconclude]
    have hread := readObjective_apply { s₁ with
      status := status.unify
      lowering := { s₁.lowering with journal }
      values := readings s₁.lowering.backend s₁.tracked } hnone
    generalize readObjective _ = r at hread
    rcases r with ⟨_, s₂⟩ | ⟨e, s₂⟩
    · obtain ⟨objectiveValue, rfl, hvalue⟩ := hread
      exact {
        describes := hs.journal journal rfl rfl rfl rfl
        tracked_eq := htracked
        objective_eq := hobjective
        found_eq := hsolution.symm
        decided := fun h => by cases h
        refuted := fun h => by cases h
        unvalued := fun h => by cases h
        solution := fun _ => ⟨τ, hτ, hvalues, hoptimal⟩
        reading := fun _ => ⟨τ, hτ, hvalues, hreading⟩
        objectiveValue := hvalue }
    · obtain ⟨rfl, rfl, hsome⟩ := hread
      exact fun h => absurd (hobjective.trans h) hsome

/-- A solve of a session answers rightly. -/
theorem solving_solve (hs : Describes g s) (options : SolveOptions) :
    Solving g options s (solve options s) := by
  have hanswer := InProcess.solving_solve hs.lowering options
  rw [solve_inProcess]
  generalize InProcess.solve options s.lowering = r at hanswer
  rcases r with ⟨status, lowering⟩ | ⟨stop, lowering⟩
  · obtain ⟨hlowering, hanswers⟩ := hanswer
    have hs₁ : Describes g { s.cleared with lowering, runtime := some .measured } :=
      ⟨hlowering, hs.normalizer_eq, hs.tracked, hs.objective⟩
    exact solving_conclude hs₁ hanswers rfl rfl rfl rfl
  · cases stop with
    | overflow => exact fun _ => hanswer
    | error e =>
        exact ⟨hanswer.1, ⟨hanswer.2, hs.normalizer_eq, hs.tracked, hs.objective⟩, rfl⟩

theorem outcome_solve (hs : Describes g s) (options : SolveOptions) :
    Outcome g s (fun found g' s' => g' = g ∧ Concludes g s s' found) (solve options s) := by
  have hsolve := solving_solve hs options
  generalize solve options s = r at hsolve
  rcases r with ⟨found, s'⟩ | ⟨stop, s'⟩
  · exact ⟨g, .refl g, hsolve.describes, rfl, hsolve⟩
  · cases stop with
    | overflow => trivial
    | error e => exact ⟨g, .refl g, hsolve.2.1, rfl, hsolve.2.2⟩

end Session

end FiniteDomain
