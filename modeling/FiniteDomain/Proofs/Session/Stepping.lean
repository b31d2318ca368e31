import FiniteDomain.Proofs.InProcess.Completion
import FiniteDomain.Proofs.Session.Exclusion
import FiniteDomain.Proofs.Session.Solving

/-!
# One step of an enumeration

A step posts what excludes the last solution, solves, and excludes what it has found. It has a
reply if everything posted is small and there is no time limit.
-/

namespace FiniteDomain

namespace InProcess

variable {g : Account} {met : VarId → Prop} {c : Constraint} {cs : List Constraint}

/-- Posts a constraint after an event. -/
def announce (c : Constraint) : Action Unit := do
  Lowering.note (.posting c (Backend.name InProcess))
  post c

theorem all_isAtom_literals (ls : List Literal) :
    (ls.map Constraint.literal).all (·.isAtom) = true := by
  simp [List.all_map, Constraint.isAtom, Constraint.asAtom?]

theorem isDirect_of_isExclusion (h : Iteration.IsExclusion met c) : IsDirect c := by
  cases h with
  | selector d i v hd hi => exact .inr (.inl ⟨_, _, rfl⟩)
  | literals ls hls => exact .inl (all_isAtom_literals ls)

theorem keeps_announce (h : Iteration.IsExclusion met c) (hknown : c.KnownTo g.registry)
    (hplain : c.Plain .modest) : Keeps g (announce c) fun _ g' =>
      Posts .modest g g' c ∧ (g.Small → g'.Small) := by
  refine Keeps.note.bind fun _ g' _ hg heq => ?_
  subst heq
  exact (keeps_post_of_direct (isDirect_of_isExclusion h) hknown hplain).weaken
    fun _ _ _ _ h => ⟨h.posts hg, h.small hg⟩

theorem completes_announce (h : Iteration.IsExclusion met c) (hg : g.Consistent) (hsmall : g.Small)
    (hknown : c.KnownTo g.registry) (hplain : c.Plain .modest) :
    Completes met g (announce c) := by
  refine Completes.note.bind .note fun _ g' _ _ heq => ?_
  subst heq
  cases h with
  | selector d i v hd hi =>
      obtain ⟨hknownD, hknownC⟩ := Constraint.knownTo_implication_iff.mp hknown
      refine completes_implication hg hsmall (hknownD _ (List.mem_singleton_self _)) hd hknownC
        hplain.2 fun y hy => ?_
      rcases List.mem_append.mp hy with hy | hy
      · obtain rfl := List.mem_singleton.mp hy
        exact hi
      · cases hy
  | literals ls hls =>
      refine completes_connective (all_isAtom_literals ls) hg hsmall hknown fun x hx => ?_
      obtain ⟨c, hc, hx⟩ := Constraint.mem_occurrencesIn.mp hx
      obtain ⟨l, hl, rfl⟩ := List.mem_map.mp hc
      obtain rfl := List.mem_singleton.mp hx
      exact hls l hl

theorem completes_forM_announce (h : ∀ c ∈ cs, Iteration.IsExclusion met c) (hg : g.Consistent)
    (hsmall : g.Small) (hknown : ∀ c ∈ cs, c.KnownTo g.registry)
    (hplain : ∀ c ∈ cs, c.Plain .modest) : Completes met g (cs.forM announce) := by
  induction cs generalizing g with
  | nil => exact .pure
  | cons c cs ih =>
      obtain ⟨hc, h⟩ := List.forall_mem_cons.mp h
      obtain ⟨hknownC, hknown⟩ := List.forall_mem_cons.mp hknown
      obtain ⟨hplainC, hplain⟩ := List.forall_mem_cons.mp hplain
      rw [List.forM_eq_forM, List.forM_cons]
      refine (completes_announce hc hg hsmall hknownC hplainC).bind
        (keeps_announce hc hknownC hplainC) fun _ g₁ hle hg₁ hkept => ?_
      exact ih h hg₁ (hkept.2 hsmall) (fun c hc => (hknown c hc).mono hle.registry) hplain

end InProcess

namespace Iteration

open InProcess (Account Imposes announce)

variable {g g₁ g' : Account} {it it' : Iteration InProcess}

/-- The account is right about an enumeration under way. Of the tracked variables only those with
a view occur in what has to be excluded. -/
structure Describes (g : Account) (it : Iteration InProcess) : Prop where
  session : Session.Describes g it.session
  known : ∀ c ∈ it.exclusion, c.KnownTo g.registry
  plain : ∀ c ∈ it.exclusion, c.Plain .modest
  shape : ∀ c ∈ it.exclusion,
    IsExclusion (fun id => ∀ x ∈ it.session.tracked, x.id = id → id ∈ g.owners) c

/-- The last solution was excluded. -/
structure Excluded (g g₁ : Account) (it : Iteration InProcess) : Prop where
  grows : g.Grows g₁
  consistent : g₁.Consistent
  imposes : Imposes .modest g g₁ (fun τ => ∀ c ∈ it.exclusion, ¬ c.Fails τ)
    fun τ => ∀ c ∈ it.exclusion, c.Realised τ
  small : g.Small → g₁.Small
  owners : g.Small → ∀ x ∈ it.session.tracked, x.id ∈ g₁.owners ↔ x.id ∈ g.owners

/-- What posting the exclusion ends with. If everything is small then it succeeds. -/
def Excluding (g : Account) (it : Iteration InProcess) :
    EStateM.Result Stop (Session InProcess) Unit → Prop
  | .ok _ s => ∃ g₁, Excluded g g₁ it ∧ Session.Describes g₁ s ∧
      s.tracked = it.session.tracked ∧ s.objective = it.session.objective
  | .error (.error _) s => ¬ g.Small ∧ ∃ g₁, g.Grows g₁ ∧ Session.Describes g₁ s ∧
      s.objective = it.session.objective
  | .error .overflow _ => ¬ g.Small

theorem excluding_post (h : Describes g it) :
    Excluding g it (Session.onBackend (it.exclusion.forM announce) it.session) := by
  have hg := h.session.lowering.consistent
  have hkeeps := InProcess.keeps_forM (P := Account.Small) h.known
    (fun c hc g' hle _ => InProcess.keeps_announce (h.shape c hc)
      ((h.known c hc).mono hle.registry) (h.plain c hc)) it.session.lowering h.session.lowering
  have hcompletes : g.Small → _ := fun hsmall =>
    InProcess.completes_forM_announce h.shape hg hsmall h.known h.plain it.session.lowering
      h.session.lowering
  simp only [Session.onBackend]
  generalize it.exclusion.forM announce it.session.lowering = r at hkeeps hcompletes
  rcases r with ⟨_, lowering⟩ | ⟨stop, lowering⟩
  · obtain ⟨g₁, hle, hobj, hlowering, himposes, hsmall⟩ := hkeeps
    refine ⟨g₁, ⟨hle, hlowering.consistent, himposes, hsmall, fun hs x hx => ⟨fun hmet => ?_,
      fun hmet => hle.owners.subset hmet⟩⟩, h.session.lowered hle hobj hlowering, rfl, rfl⟩
    -- a tracked variable that occurs has a view already, and no other variable gets one
    by_contra hnew
    obtain ⟨_, _, hrun, hframe⟩ := hcompletes hs
    cases hrun
    have hsame := hframe x.id fun hold => hnew (hold x hx rfl)
    rw [← hlowering.isSome_lookup_iff, hsame, h.session.lowering.isSome_lookup_iff] at hmet
    exact hnew hmet
  · have hlarge : ¬ g.Small := fun hs => by
      obtain ⟨_, _, hrun, -⟩ := hcompletes hs
      cases hrun
    cases stop with
    | overflow => exact hlarge
    | error e =>
        obtain ⟨g₁, hle, hobj, hlowering⟩ := hkeeps
        exact ⟨hlarge, g₁, hle, h.session.lowered hle hobj hlowering, rfl⟩

theorem onBackend_bind {α β : Type} (first : InProcess.Action α) (next : α → InProcess.Action β) :
    Session.onBackend (first >>= next) =
      Session.onBackend first >>= fun a => Session.onBackend (next a) := by
  funext s
  simp only [Session.onBackend, Bind.bind, EStateM.bind]
  cases first s.lowering <;> rfl

theorem onSession_bind {α β : Type} (first : Session.Action InProcess α)
    (next : α → Session.Action InProcess β) :
    onSession (first >>= next) = onSession first >>= fun a => onSession (next a) := by
  funext it
  simp only [onSession, Bind.bind, EStateM.bind]
  cases first it.session <;> rfl

/-- Posting what is excluded is an action of the backend. -/
theorem forM_postUntracked (cs : List Constraint) :
    (cs.forM fun c => onSession (Session.postUntracked c)) =
      onSession (Session.onBackend (cs.forM announce)) := by
  induction cs with
  | nil => rfl
  | cons c cs ih =>
      have hfirst : Session.postUntracked c = Session.onBackend (announce c) :=
        (onBackend_bind (Lowering.note _) fun _ => InProcess.post c).symm
      rw [List.forM_eq_forM, List.forM_eq_forM] at ih
      rw [List.forM_eq_forM, List.forM_eq_forM, List.forM_cons, List.forM_cons, onBackend_bind,
        onSession_bind, hfirst, ih]

/-- What is left of a step when the last solution is excluded. -/
def seek : Action InProcess Iterated := do
  if ← onSession (Session.solve (← get).options) then
    let session := (← get).session
    let exclusion ← onSession (Session.onBackend (Lowering.fresh (exclusionOf session)))
    modify fun it => { it with exclusion, hasSolution := true }
    return .solution session.values
  let it ← get
  match it.session.status with
  | .unsatisfiable => return if it.hasSolution then .finished else .unsatisfiable
  | _ => return .unknown

theorem next_eq (it : Iteration InProcess) : next it =
    match Session.onBackend (it.exclusion.forM announce) it.session with
    | .ok _ session => seek { it with session, exclusion := [] }
    | .error e session => .error e { it with session, exclusion := [] } := by
  have hnext : next it = (do
      onSession (Session.onBackend (it.exclusion.forM announce))
      seek : Action InProcess Iterated) { it with exclusion := [] } := by
    rw [← forM_postUntracked]
    rfl
  rw [hnext]
  simp only [Bind.bind, EStateM.bind, onSession]
  cases Session.onBackend (it.exclusion.forM announce) it.session <;> rfl

/-- The reply when no solution was found. -/
def verdict (it : Iteration InProcess) (status : SolverStatus) : Iterated :=
  match status with
  | .unsatisfiable => if it.hasSolution then .finished else .unsatisfiable
  | _ => .unknown

theorem seek_eq (it : Iteration InProcess) : seek it =
    match Session.solve it.options it.session with
    | .ok true session =>
        let lowering := { session.lowering with
          nextId := (exclusionOf session session.lowering.nextId).2 }
        .ok (.solution session.values) { it with
          session := { session with lowering }
          exclusion := (exclusionOf session session.lowering.nextId).1
          hasSolution := true }
    | .ok false session => .ok (verdict it session.status) { it with session }
    | .error e session => .error e { it with session } := by
  simp only [seek, Bind.bind, EStateM.bind, get_apply, onSession]
  cases Session.solve it.options it.session with
  | error e session => rfl
  | ok found session =>
      cases found with
      | true => rfl
      | false =>
          obtain ⟨lowering, normalizer, tracked, objective, status, values, value, runtime⟩ := session
          cases status <;> rfl

/-! ## The reply -/

/-- The reply of a step after which the account is the last one given, when the last solution was
excluded at the one before. -/
def Replies (g₁ g' : Account) (it it' : Iteration InProcess) : Iterated → Prop
  | .solution values => it'.hasSolution = true ∧
      (∃ τ, g₁.Allows τ ∧ values = g₁.reading it.session.tracked τ) ∧
      ∃ r, g' = g₁.know r ∧ g₁.registry ≤ r ∧ Encodes .modest g₁.registry r it'.exclusion
        (fun τ => g₁.reading it.session.tracked τ ≠ values)
        fun τ => g₁.reading it.session.tracked τ ≠ values
  | .unknown => False
  | reply => reply = (if it.hasSolution then .finished else .unsatisfiable) ∧
      it'.hasSolution = it.hasSolution ∧ it'.exclusion = [] ∧ g' = g₁ ∧ ∀ τ, ¬ g₁.Meets τ

/-- What a step ends with. -/
def Stepping (g : Account) (it : Iteration InProcess) :
    EStateM.Result Stop (Iteration InProcess) Iterated → Prop
  | .ok reply it' => ∃ g₁ g', Excluded g g₁ it ∧ g₁.Grows g' ∧ Describes g' it' ∧
      it'.session.tracked = it.session.tracked ∧ it'.session.objective = it.session.objective ∧
      it'.options = it.options ∧ Replies g₁ g' it it' reply
  | .error (.error _) it' => (g.Small → it.options.timeLimit.isSome = true) ∧
      ∃ g', g.Grows g' ∧ Describes g' it' ∧ it'.session.objective = it.session.objective
  | .error .overflow _ => g.Small → it.session.objective ≠ none

variable {s s' : Session InProcess} {found : Bool}

/-- The kept values are values of the tracked variables. -/
theorem keeping_of_concludes (h : Session.Concludes g s s' true) :
    Keeping g.registry s' s'.tracked := by
  obtain ⟨τ, hτ, hvalues, -⟩ := h.solution rfl
  refine fun x hx => ⟨h.describes.tracked x hx, fun v hv => ?_⟩
  rw [Session.value, hvalues] at hv
  obtain ⟨-, -, rfl⟩ := InProcess.lookup_reading_iff.mp hv
  exact hτ.1.contains (h.describes.tracked x hx)

/-- A variable differs from its kept value exactly if the variables are read differently. -/
theorem differs_iff {τ τ' : VarId → Int} {xs : List Variable} (hvalues : s.values = g.reading xs τ) :
    Differs s xs τ' ↔ g.reading xs τ' ≠ s.values := by
  rw [hvalues, Ne, InProcess.reading_eq_iff]
  simp only [Differs, Session.value, hvalues, InProcess.lookup_reading_iff]
  push Not
  constructor
  · rintro ⟨x, hx, v, ⟨-, hmet, rfl⟩, hne⟩
    exact ⟨x, hx, hmet, hne⟩
  · rintro ⟨x, hx, hmet, hne⟩
    exact ⟨x, hx, τ x.id, ⟨⟨x, hx, rfl⟩, hmet, rfl⟩, hne⟩

/-- What was found is excluded at the next step. -/
theorem stepping_found (hexcluded : Excluded g g₁ it) {s' : Session InProcess}
    (htracked : s'.tracked = it.session.tracked) (hobjective : s'.objective = it.session.objective)
    (hs' : Session.Concludes g₁ s s' true) :
    let lowering := { s'.lowering with nextId := (exclusionOf s' s'.lowering.nextId).2 }
    Stepping g it (.ok (.solution s'.values) { it with
      session := { s' with lowering }
      exclusion := (exclusionOf s' s'.lowering.nextId).1
      hasSolution := true }) := by
  have hmakes : Makes g₁.registry (exclusionOf s') fun cs r' =>
      Encodes .modest g₁.registry r' cs (Differs s' s'.tracked) (Differs s' s'.tracked) ∧
        ∀ c ∈ cs, IsExclusion (Involved g₁.registry.next s') c :=
    makes_exclusionOf (keeping_of_concludes hs')
  have hfresh := InProcess.Keeps.fresh hmakes s'.lowering hs'.describes.lowering
  obtain ⟨g', hle, hobj, hlowering, r, rfl, hencodes, hshape⟩ := hfresh
  obtain ⟨τ, hτ, hvalues, -⟩ := hs'.solution rfl
  have hreading : s'.values = g₁.reading s'.tracked τ := by rw [hvalues, hs'.tracked_eq]
  have hdiffers : ∀ τ', Differs s' s'.tracked τ' ↔
      g₁.reading it.session.tracked τ' ≠ s'.values := fun τ' => htracked ▸ differs_iff hreading
  refine ⟨g₁, g₁.know r, hexcluded, hle, ⟨hs'.describes.lowered hle hobj hlowering, hencodes.known,
    hencodes.plain, fun c hc => (hshape c hc).mono fun id hid => ?_⟩, htracked, hobjective, rfl, rfl,
    ⟨τ, hτ, htracked ▸ hreading⟩, r, rfl, hle.registry, hencodes.weaken (fun τ' _ => (hdiffers τ').mp)
      fun τ' _ => (hdiffers τ').mpr⟩
  rintro x hx rfl
  rcases hid with hnew | hkept
  · exact absurd (hs'.describes.tracked x hx).1 (not_lt.mpr hnew)
  · obtain ⟨v, hv⟩ := Option.isSome_iff_exists.mp hkept
    rw [Session.value, hreading] at hv
    exact (InProcess.lookup_reading_iff.mp hv).2.1

/-- If nothing was found then there is nothing left. -/
theorem stepping_ended (hexcluded : Excluded g g₁ it) {s' : Session InProcess}
    (htracked : s'.tracked = it.session.tracked) (hobjective : s'.objective = it.session.objective)
    (hs' : Session.Concludes g₁ s s' false) :
    Stepping g it (.ok (verdict it s'.status) { it with session := s', exclusion := [] }) := by
  have hverdict : verdict it s'.status = if it.hasSolution then .finished else .unsatisfiable := by
    rw [hs'.decided rfl, verdict]
  refine ⟨g₁, g₁, hexcluded, .refl g₁, ⟨hs'.describes, by simp, by simp, by simp⟩, htracked,
    hobjective, rfl, ?_⟩
  rw [hverdict]
  cases hsolution : it.hasSolution with
  | true => exact ⟨by simp [hsolution], hsolution.symm, rfl, rfl, hs'.refuted rfl⟩
  | false => exact ⟨by simp [hsolution], hsolution.symm, rfl, rfl, hs'.refuted rfl⟩

theorem stepping_seek (hexcluded : Excluded g g₁ it) (hs : Session.Describes g₁ s)
    (htracked : s.tracked = it.session.tracked) (hobjective : s.objective = it.session.objective) :
    Stepping g it (seek { it with session := s, exclusion := [] }) := by
  have hsolve := Session.solving_solve hs it.options
  rw [seek_eq]
  simp only
  generalize Session.solve it.options s = r at hsolve
  rcases r with ⟨found, s'⟩ | ⟨stop, s'⟩
  · have htracked' := hsolve.tracked_eq.trans htracked
    have hobjective' := hsolve.objective_eq.trans hobjective
    cases found with
    | true => exact stepping_found hexcluded htracked' hobjective' hsolve
    | false => exact stepping_ended hexcluded htracked' hobjective' hsolve
  · cases stop with
    | overflow => exact fun hsmall hnone => hsolve (hobjective.trans hnone) (hexcluded.small hsmall)
    | error e =>
        exact ⟨fun _ => hsolve.1, g₁, hexcluded.grows, ⟨hsolve.2.1, by simp, by simp, by simp⟩,
          hsolve.2.2.trans hobjective⟩

/-- A step of an enumeration does what it should. -/
theorem stepping_next (h : Describes g it) : Stepping g it (next it) := by
  have hposted := excluding_post h
  rw [next_eq]
  generalize Session.onBackend (it.exclusion.forM announce) it.session = r at hposted
  rcases r with ⟨_, s⟩ | ⟨stop, s⟩
  · obtain ⟨g₁, hexcluded, hs, htracked, hobjective⟩ := hposted
    exact stepping_seek hexcluded hs htracked hobjective
  · cases stop with
    | overflow => exact fun hsmall => absurd hsmall hposted
    | error e =>
        obtain ⟨hlarge, g₁, hle, hs, hobjective⟩ := hposted
        exact ⟨fun hsmall => absurd hsmall hlarge, g₁, hle, ⟨hs, by simp, by simp, by simp⟩,
          hobjective⟩

end Iteration

end FiniteDomain
