import FiniteDomain.Proofs.Engine.Traces
import FiniteDomain.Proofs.Session.Answers
import Mathlib.Algebra.Order.BigOperators.Group.List
import Mathlib.Data.List.Sections

/-!
# Exact enumeration

The steps of an enumeration reply every solution once, as far as the tracked variables go that
the engine has met, and then that there are no more. An invariant carries this: what was found and
what is excluded are the same, both for the values that the engine accepts and for the solutions of
what was posted at the start.
-/

namespace FiniteDomain

open InProcess (Account Imposes)

/-! ## The number of solutions -/

namespace Domain

/-- The values between the bounds. -/
def span (d : Domain) : List Int := (List.range d.size).map fun i : Nat => d.lower + i

theorem mem_span_of_contains {d : Domain} {v : Int} (h : d.contains v = true) : v ∈ d.span := by
  obtain ⟨hl, hu⟩ := bounds_of_contains h
  refine List.mem_map.mpr ⟨(v - d.lower).toNat, List.mem_range.mpr ?_, ?_⟩
  · rw [size]
    omega
  · omega

theorem size_pos (d : Domain) : 0 < d.size := by
  have := d.lower_le_upper
  rw [size]
  omega

end Domain

theorem length_sections {α : Type} (L : List (List α)) :
    L.sections.length = (L.map List.length).prod := by
  induction L with
  | nil => simp
  | cons l L ih => simp [List.sections, List.length_flatMap, ih, Nat.mul_comm]

/-- The values of those variables that have a view extend to a model of the engine: each of its
variables takes a value that is left, and all that was posted holds. -/
def InProcess.Extendable (s : Lowering.State InProcess) (xs : List Variable)
    (values : List (VarId × Int)) : Prop :=
  ∃ a, Engine.IsModel s.backend.engine a ∧
    values = xs.filterMap fun x => (s.backend.views.lookup x.id).map fun v => (x.id, v.eval a)

namespace InProcess.Account

variable {g : Account} {xs : List Variable} {τ : VarId → Int}

/-- The values of the variables that the engine has met, in a solution of what was posted. -/
def Solution (g : Account) (xs : List Variable) (values : List (VarId × Int)) : Prop :=
  ∃ τ, g.Meets τ ∧ values = g.reading xs τ

/-- The solutions are the values that extend to a model of the engine. -/
theorem solution_iff {s : Lowering.State InProcess} {values : List (VarId × Int)}
    (h : Describes g s) (hsmall : g.Small) : g.Solution xs values ↔ Extendable s xs values := by
  have hg := h.consistent
  have hread : ∀ τ (x : Variable), (s.backend.views.lookup x.id).map (·.eval (g.valuation τ)) =
      (s.backend.views.lookup x.id).map fun _ => τ x.id := by
    intro τ x
    refine Option.map_congr fun v hv => ?_
    have hreads : Reads g x.id v := (h.views_iff _ _).mp hv
    exact hreads.eval τ
  have hvalues : ∀ a, (xs.filterMap fun x => (s.backend.views.lookup x.id).map fun v =>
      (x.id, v.eval a)) = xs.filterMap fun x =>
        ((s.backend.views.lookup x.id).map (·.eval a)).map fun v => (x.id, v) := by
    simp [Function.comp_def]
  constructor
  · rintro ⟨τ, hτ, rfl⟩
    have hholds : ∀ p ∈ s.backend.engine.propagators, p.Holds (g.valuation τ) := fun p hp =>
      (hτ.2 p (h.tracks.installed p hp)).2
    obtain ⟨hadmits, hfeasible⟩ := h.tracks.spares hsmall _ (hg.admits hτ.1) hholds
    refine ⟨g.valuation τ, ⟨hfeasible, hadmits, hholds⟩, ?_⟩
    rw [hvalues, reading_eq h (hread τ) xs]
  · rintro ⟨a, ⟨hfeasible, hadmits, hholds⟩, rfl⟩
    have hadmits := Engine.Store.admits_of_le h.tracks.le hadmits
    have hallows : g.Allows (g.extension a) := allows_extension h hadmits fun p hp =>
      .inr (hholds p (h.tracks.complete hfeasible p hp))
    refine ⟨g.extension a, (meets_iff_allows hg).mpr ⟨hsmall, hallows⟩, ?_⟩
    rw [hvalues]
    refine reading_eq h (fun x => ?_) xs
    rw [← hread]
    refine Option.map_congr fun v hv => ?_
    have hreads : Reads g x.id v := (h.views_iff _ _).mp hv
    exact (eval_extension h (hreads.exact hg).2).symm

/-- All values of the variables that the engine has met, in any combination. -/
def candidates (g : Account) (xs : List Variable) : List (List (VarId × Int)) :=
  ((xs.filter fun x => x.id ∈ g.owners).map fun x => x.domain.span.map fun v => (x.id, v)).sections

theorem reading_mem_candidates (hxs : ∀ x ∈ xs, g.registry.Knows x) (hτ : g.registry.Respects τ) :
    g.reading xs τ ∈ g.candidates xs := by
  rw [candidates, List.mem_sections, reading, List.forall₂_map_left_iff,
    List.forall₂_map_right_iff, List.forall₂_same]
  intro x hx
  have hvalue := hτ.contains (hxs x (List.mem_of_mem_filter hx))
  exact List.mem_map_of_mem (Domain.mem_span_of_contains hvalue)

theorem length_candidates_le :
    (g.candidates xs).length ≤ xs.foldl (fun n x => n * x.domain.size) 1 := by
  have hall : xs.foldl (fun n x => n * x.domain.size) 1 = (xs.map fun x => x.domain.size).prod := by
    rw [List.prod_eq_foldl, List.foldl_map]
  have hmet : (g.candidates xs).length =
      ((xs.filter fun x => x.id ∈ g.owners).map fun x => x.domain.size).prod := by
    rw [candidates, length_sections, List.map_map]
    simp [Function.comp_def, Domain.span]
  rw [hall, hmet]
  refine List.Sublist.prod_le_prod' (List.filter_sublist.map _) fun n hn => ?_
  obtain ⟨x, -, rfl⟩ := List.mem_map.mp hn
  exact x.domain.size_pos

/-- The bound of an enumeration without a limit is not reached. -/
theorem length_le_solveBound {L : List (List (VarId × Int))} (hxs : ∀ x ∈ xs, g.registry.Knows x)
    (hnodup : L.Nodup) (hL : ∀ values ∈ L, g.Solution xs values) (b : InProcess) :
    L.length ≤ Backend.solveBound b xs := by
  have hsubset : L ⊆ g.candidates xs := by
    intro values hv
    obtain ⟨τ, hτ, rfl⟩ := hL values hv
    exact reading_mem_candidates hxs hτ.1
  calc L.length ≤ (g.candidates xs).length := (hnodup.subperm hsubset).length_le
    _ ≤ xs.foldl (fun n x => n * x.domain.size) 1 := length_candidates_le
    _ ≤ Backend.solveBound b xs := Nat.le_succ _

end InProcess.Account

/-! ## One step -/

namespace Iteration

variable {g₀ g g₁ g' : Account} {xs : List Variable} {found : List (List (VarId × Int))}
  {it it' : Iteration InProcess} {values : List (VarId × Int)} {τ τ' : VarId → Int}

/-- What does not change while an enumeration is under way: it goes on from the first account, has
no objective and no time limit, and posts nothing large. The engine meets no other tracked
variable. -/
structure Underway (g₀ : Account) (xs : List Variable) (g : Account) (it : Iteration InProcess) :
    Prop where
  describes : Describes g it
  grows : g₀.Grows g
  small : g.Small
  tracked : it.session.tracked = xs
  objective : it.session.objective = none
  timeLimit : it.options.timeLimit = none
  owners : ∀ x ∈ xs, x.id ∈ g.owners ↔ x.id ∈ g₀.owners

/-- What was found is excluded, and nothing else. -/
structure Enumerates (g₀ : Account) (xs : List Variable) (found : List (List (VarId × Int)))
    (g : Account) (it : Iteration InProcess) : Prop extends Underway g₀ xs g it where
  hasSolution : it.hasSolution = !found.isEmpty
  excluded : ∀ τ, g.Allows τ → (∀ c ∈ it.exclusion, ¬ c.Fails τ) → g₀.reading xs τ ∉ found
  remaining : ∀ τ, g₀.Meets τ → g₀.reading xs τ ∉ found →
    ∃ τ', Agree g₀.registry.next τ τ' ∧ g.Meets τ' ∧ ∀ c ∈ it.exclusion, c.Realised τ'

namespace Underway

/-- An enumeration goes on when the last solution was excluded and variables were created. -/
theorem next {r : Registry} (h : Underway g₀ xs g it) (hexcluded : Excluded g g₁ it)
    (hr : g₁.registry ≤ r) (hdescribes : Describes (g₁.know r) it')
    (htracked : it'.session.tracked = it.session.tracked)
    (hobjective : it'.session.objective = it.session.objective)
    (hoptions : it'.options = it.options) : Underway g₀ xs (g₁.know r) it' where
  describes := hdescribes
  grows := (h.grows.trans hexcluded.grows).trans (Account.grows_know hr)
  small := hexcluded.small h.small
  tracked := htracked.trans h.tracked
  objective := hobjective.trans h.objective
  timeLimit := hoptions ▸ h.timeLimit
  owners := fun x hx => (hexcluded.owners h.small x (h.tracked ▸ hx)).trans (h.owners x hx)

/-- Later accounts read the tracked variables alike. -/
theorem reading_eq (h : Underway g₀ xs g it) (hexcluded : Excluded g g₁ it) :
    g₁.reading it.session.tracked τ = g₀.reading xs τ := by
  rw [Account.reading, Account.reading, h.tracked]
  congr 1
  refine List.filter_congr fun x hx => ?_
  rw [decide_eq_decide, hexcluded.owners h.small x (h.tracked ▸ hx), h.owners x hx]

end Underway

/-- The reply when there are no more solutions than these. -/
def ending (found : List (List (VarId × Int))) : Iterated :=
  if found.isEmpty then .unsatisfiable else .finished

namespace Enumerates

/-- The last solution was excluded: the engine accepts nothing that was found before. -/
theorem not_mem_found (h : Enumerates g₀ xs found g it) (hexcluded : Excluded g g₁ it)
    (hτ : g₁.Allows τ) : g₀.reading xs τ ∉ found :=
  h.excluded τ (hτ.of_grows h.describes.session.lowering.consistent hexcluded.grows)
    (hexcluded.imposes.sound nofun τ hτ)

/-- Solutions that were not found are still there. -/
theorem exists_meets (h : Enumerates g₀ xs found g it) (hexcluded : Excluded g g₁ it)
    (hτ : g₀.Meets τ) (hnew : g₀.reading xs τ ∉ found) :
    ∃ τ', Agree g₀.registry.next τ τ' ∧ g₁.Meets τ' := by
  obtain ⟨τ₁, hagree₁, hτ₁, hall⟩ := h.remaining τ hτ hnew
  obtain ⟨τ₂, hagree₂, hτ₂⟩ := hexcluded.imposes.complete rfl τ₁ hτ₁ hall
  exact ⟨τ₂, hagree₁.trans hagree₂ h.grows.registry.1, hτ₂⟩

/-- A step that finds a solution. -/
theorem find (h : Enumerates g₀ xs found g it) (hg₀ : g₀.Consistent) (hsmall₀ : g₀.Small)
    (hexcluded : Excluded g g₁ it) (hdescribes : Describes g' it')
    (htracked : it'.session.tracked = it.session.tracked)
    (hobjective : it'.session.objective = it.session.objective) (hoptions : it'.options = it.options)
    (hreplies : Replies g₁ g' it it' (.solution values)) :
    g₀.Solution xs values ∧ values ∉ found ∧ Enumerates g₀ xs (found ++ [values]) g' it' := by
  obtain ⟨hhas, ⟨τ, hτ, hvalues⟩, r, rfl, hr, hencodes⟩ := hreplies
  have hg₁ := hexcluded.consistent
  have hgrows := h.grows.trans hexcluded.grows
  rw [h.reading_eq hexcluded] at hvalues
  refine ⟨⟨τ, ?_, hvalues⟩, hvalues ▸ h.not_mem_found hexcluded hτ,
    h.next hexcluded hr hdescribes htracked hobjective hoptions, by simp [hhas], ?_, ?_⟩
  · exact (Account.meets_iff_allows hg₀).mpr ⟨hsmall₀, hτ.of_grows hg₀ hgrows⟩
  · intro τ' hτ' hall
    have hold := h.not_mem_found hexcluded (hτ'.of_grows hg₁ (Account.grows_know hr))
    have hdiffers := hencodes.sound τ' hτ'.1 hall
    rw [h.reading_eq hexcluded] at hdiffers
    simp only [List.mem_append, List.mem_singleton, not_or]
    exact ⟨hold, hdiffers⟩
  · intro τ' hτ' hnew
    simp only [List.mem_append, List.mem_singleton, not_or] at hnew
    obtain ⟨τ₁, hagree₁, hτ₁⟩ := h.exists_meets hexcluded hτ' hnew.1
    have hsame : g₁.reading it.session.tracked τ₁ = g₀.reading xs τ' :=
      (h.reading_eq hexcluded).trans (InProcess.reading_of_agree hg₀ hagree₁)
    obtain ⟨τ₂, hagree₂, hτ₂, hall⟩ := hencodes.complete trivial τ₁ hτ₁.1 (hsame ▸ hnew.2)
    exact ⟨τ₂, hagree₁.trans hagree₂ hgrows.registry.1,
      hτ₁.of_agree hg₁ (Account.consistent_know hg₁ hr) (Account.grows_know hr) rfl hagree₂ hτ₂,
      hall⟩

/-- A step that finds nothing: every solution was found before. -/
theorem finish (h : Enumerates g₀ xs found g it) (hexcluded : Excluded g g₁ it)
    (hdescribes : Describes g₁ it') (htracked : it'.session.tracked = it.session.tracked)
    (hobjective : it'.session.objective = it.session.objective) (hoptions : it'.options = it.options)
    (hhas : it'.hasSolution = it.hasSolution) (hrefuted : ∀ τ, ¬ g₁.Meets τ) :
    (∀ values, g₀.Solution xs values → values ∈ found) ∧ Enumerates g₀ xs found g₁ it' := by
  have hall : ∀ τ, g₀.Meets τ → g₀.reading xs τ ∈ found := by
    intro τ hτ
    by_contra hnew
    obtain ⟨τ', -, hτ'⟩ := h.exists_meets hexcluded hτ hnew
    exact hrefuted τ' hτ'
  refine ⟨fun values ⟨τ, hτ, hvalues⟩ => hvalues ▸ hall τ hτ,
    h.next hexcluded g₁.registry.le_refl hdescribes htracked hobjective hoptions,
    hhas.trans h.hasSolution, fun τ hτ _ => h.not_mem_found hexcluded hτ, fun τ hτ hnew => ?_⟩
  exact absurd (hall τ hτ) hnew

/-- What a step does. -/
theorem step (h : Enumerates g₀ xs found g it) (hg₀ : g₀.Consistent) (hsmall₀ : g₀.Small) :
    ∃ g' it', (∃ values, next it = .ok (.solution values) it' ∧ g₀.Solution xs values ∧
        values ∉ found ∧ Enumerates g₀ xs (found ++ [values]) g' it') ∨
      (next it = .ok (ending found) it' ∧
        (∀ values, g₀.Solution xs values → values ∈ found) ∧ Enumerates g₀ xs found g' it') := by
  have hstep := stepping_next h.describes
  generalize next it = r at hstep ⊢
  rcases r with ⟨reply, it'⟩ | ⟨stop, it'⟩
  · obtain ⟨g₁, g', hexcluded, -, hdescribes, htracked, hobjective, hoptions, hreplies⟩ := hstep
    have hended : (if it.hasSolution then Iterated.finished else .unsatisfiable) =
        ending found := by
      rw [h.hasSolution, ending]
      cases found.isEmpty <;> rfl
    cases reply with
    | solution values =>
        exact ⟨g', it', .inl ⟨values, rfl, h.find hg₀ hsmall₀ hexcluded hdescribes htracked
          hobjective hoptions hreplies⟩⟩
    | unknown => exact absurd hreplies id
    | finished =>
        obtain ⟨hreply, hhas, -, rfl, hrefuted⟩ := hreplies
        exact ⟨g', it', .inr ⟨congrArg (EStateM.Result.ok · it') (hreply.trans hended),
          h.finish hexcluded hdescribes htracked hobjective hoptions hhas hrefuted⟩⟩
    | unsatisfiable =>
        obtain ⟨hreply, hhas, -, rfl, hrefuted⟩ := hreplies
        exact ⟨g', it', .inr ⟨congrArg (EStateM.Result.ok · it') (hreply.trans hended),
          h.finish hexcluded hdescribes htracked hobjective hoptions hhas hrefuted⟩⟩
  · cases stop with
    | overflow => exact absurd h.objective (hstep h.small)
    | error e =>
        have hlimited := hstep.1 h.small
        rw [h.timeLimit] at hlimited
        cases hlimited

end Enumerates

/-! ## Runs -/

/-- The replies of the next steps. -/
def calls : Nat → Action InProcess (List Iterated)
  | 0 => return []
  | count + 1 => do
    let reply ← next
    let replies ← calls count
    return reply :: replies

theorem calls_succ {count : Nat} {reply : Iterated} (h : next it = .ok reply it') :
    calls (count + 1) it = match calls count it' with
      | .ok replies it => .ok (reply :: replies) it
      | .error e it => .error e it := by
  simp only [calls, Bind.bind, EStateM.bind, h]
  cases calls count it' <;> rfl

theorem next_of_calls {reply : Iterated} (h : calls 1 it = .ok [reply] it') :
    next it = .ok reply it' := by
  simp only [calls, Bind.bind, EStateM.bind] at h
  cases hnext : next it with
  | ok reply' it₁ =>
      simp only [hnext] at h
      cases h
      rfl
  | error e it₁ =>
      rw [hnext] at h
      cases h

/-- The next steps reply these solutions, and all further ones the same. -/
def Yields (reply : Iterated) : List (List (VarId × Int)) → Iteration InProcess → Prop
  | [], it => ∀ count, ∃ it', calls count it = .ok (List.replicate count reply) it'
  | values :: rest, it => ∃ it', next it = .ok (.solution values) it' ∧ Yields reply rest it'

namespace Yields

variable {reply : Iterated} {rest : List (List (VarId × Int))}

theorem calls_eq (h : Yields reply rest it) (count : Nat) : ∃ it', calls count it =
    .ok ((rest.take count).map .solution ++ List.replicate (count - rest.length) reply) it' := by
  induction rest generalizing it count with
  | nil => simpa using h count
  | cons values rest ih =>
      cases count with
      | zero => exact ⟨it, by simp; rfl⟩
      | succ count =>
          obtain ⟨it₁, hnext, hrest⟩ := h
          obtain ⟨it', hcalls⟩ := ih hrest count
          refine ⟨it', ?_⟩
          rw [calls_succ hnext, hcalls]
          simp

/-- Finding several solutions stops when there are enough of them, or no more. -/
theorem collect_eq (h : Yields reply rest it) (hreply : ∀ values, reply ≠ .solution values)
    (count : Nat) (found : List (List (VarId × Int))) : ∃ it',
      collect count found it = .ok (found ++ rest.take count, none) it' := by
  induction count generalizing it rest found with
  | zero => exact ⟨it, by simp [collect]; rfl⟩
  | succ count ih =>
      cases rest with
      | nil =>
          obtain ⟨it', hcalls⟩ := h 1
          refine ⟨it', ?_⟩
          rw [collect_succ, next_of_calls hcalls, List.take_nil, List.append_nil]
          cases reply with
          | solution values => exact absurd rfl (hreply values)
          | _ => rfl
      | cons values rest =>
          obtain ⟨it₁, hnext, hrest⟩ := h
          obtain ⟨it', hcollect⟩ := ih hrest (found ++ [values])
          refine ⟨it', ?_⟩
          rw [collect_succ, hnext]
          simp [hcollect]

end Yields

/-- When everything was found, no step finds anything. -/
theorem Enumerates.yields_nil (h : Enumerates g₀ xs found g it) (hg₀ : g₀.Consistent)
    (hsmall₀ : g₀.Small) (hall : ∀ values, g₀.Solution xs values → values ∈ found) :
    Yields (ending found) [] it := by
  intro count
  induction count generalizing g it with
  | zero => exact ⟨it, rfl⟩
  | succ count ih =>
      obtain ⟨g', it₁, ⟨values, -, hsolution, hnew, -⟩ | ⟨hnext, -, h₁⟩⟩ := h.step hg₀ hsmall₀
      · exact absurd (hall values hsolution) hnew
      · obtain ⟨it', hcalls⟩ := ih h₁
        refine ⟨it', ?_⟩
        rw [calls_succ hnext, hcalls, List.replicate_succ]

/-- If there are not too many solutions then the steps find those that are left. -/
theorem Enumerates.exists_yields {bound : Nat} (h : Enumerates g₀ xs found g it)
    (hg₀ : g₀.Consistent) (hsmall₀ : g₀.Small) (hnodup : found.Nodup)
    (hfound : ∀ values ∈ found, g₀.Solution xs values)
    (hbound : ∀ L : List (List (VarId × Int)), L.Nodup → (∀ values ∈ L, g₀.Solution xs values) →
      L.length ≤ bound) :
    ∃ rest, (found ++ rest).Nodup ∧ (∀ values, values ∈ found ++ rest ↔ g₀.Solution xs values) ∧
      Yields (ending (found ++ rest)) rest it := by
  induction hleft : bound - found.length using Nat.strong_induction_on generalizing found g it with
  | h left ih =>
      obtain ⟨g', it', ⟨values, hnext, hsolution, hnew, h'⟩ | ⟨hnext, hall, h'⟩⟩ := h.step hg₀ hsmall₀
      · have hnodup' : (found ++ [values]).Nodup :=
          hnodup.append (List.nodup_singleton _) (List.disjoint_singleton.mpr hnew)
        have hfound' : ∀ v ∈ found ++ [values], g₀.Solution xs v :=
          List.forall_mem_append.mpr ⟨hfound, List.forall_mem_singleton.mpr hsolution⟩
        have hlength := hbound _ hnodup' hfound'
        rw [List.length_append, List.length_singleton] at hlength
        have hless : bound - (found ++ [values]).length < left := by
          rw [List.length_append, List.length_singleton]
          omega
        obtain ⟨rest, hrest⟩ := ih _ hless h' hnodup' hfound' rfl
        rw [List.append_assoc] at hrest
        exact ⟨values :: rest, hrest.1, hrest.2.1, it', hnext, hrest.2.2⟩
      · have hyields := h.yields_nil hg₀ hsmall₀ hall
        rw [← List.append_nil found] at hnodup hyields
        exact ⟨[], hnodup, fun values =>
          ⟨fun hv => hfound values (by simpa using hv), fun hv => by simpa using hall values hv⟩,
            hyields⟩

/-- At the start nothing was found. -/
theorem enumerates_start {s : Session InProcess} {options : SolveOptions}
    (hs : Session.Describes g s) (hsmall : g.Small) (hobjective : s.objective = none)
    (hlimit : options.timeLimit = none) :
    Enumerates g s.tracked [] g { session := s, options } where
  describes := describes_start hs
  grows := .refl g
  small := hsmall
  tracked := rfl
  objective := hobjective
  timeLimit := hlimit
  owners := fun _ _ => Iff.rfl
  hasSolution := rfl
  excluded := by simp
  remaining := fun τ hτ _ => ⟨τ, fun _ _ => rfl, hτ, by simp⟩

end Iteration

/-! ## Enumerations -/

variable {course : Course} {options : SolveOptions}

/-- Without an objective and a time limit, and if all sums are small, the steps of an enumeration
reply every solution once and then that there are no more. An enumeration with a limit finds so
many of them, and one without a limit all of them. The solutions are the values of the tracked
variables that extend to a model of the engine as it is before the first step. -/
theorem enumeration_is_exact (h : Reachable (Command.Admissible .words) course)
    (hobjective : course.session.objective = none) (hlimit : options.timeLimit = none) :
    (∃ g, Session.Describes g course.session) ∧
      ∀ g, Session.Describes g course.session → g.Small →
        ∃ L : List (List (VarId × Int)), L.Nodup ∧
          (∀ values, values ∈ L ↔ g.Solution course.session.tracked values) ∧
          (∀ values, values ∈ L ↔
            InProcess.Extendable course.session.lowering course.session.tracked values) ∧
          (∀ count, ∃ it, Iteration.calls count { session := course.session, options } =
            .ok ((L.take count).map .solution ++
              List.replicate (count - L.length) (Iteration.ending L)) it) ∧
          ∀ limit : Option Nat, ∃ session, Session.enumerate limit options course.session =
            .ok (limit.elim L L.take, none) session := by
  obtain ⟨g, hg⟩ := Course.exists_accounts (fun _ _ h => h) h
  refine ⟨⟨g, hg.describes⟩, fun g hs hsmall => ?_⟩
  have hbound := fun L hnodup hL => Account.length_le_solveBound (L := L) hs.tracked hnodup hL
    course.session.lowering.backend
  obtain ⟨L, hnodup, hL, hyields⟩ := (Iteration.enumerates_start hs hsmall hobjective
    hlimit).exists_yields hs.lowering.consistent hsmall List.nodup_nil (by simp) hbound
  rw [List.nil_append] at hnodup hL hyields
  refine ⟨L, hnodup, hL, fun values => (hL values).trans (Account.solution_iff hs.lowering hsmall),
    hyields.calls_eq, fun limit => ?_⟩
  have hending : ∀ values, Iteration.ending L ≠ .solution values := by
    intro values
    rw [Iteration.ending]
    split <;> nofun
  obtain ⟨it, hcollect⟩ := hyields.collect_eq hending
    (limit.getD (Backend.solveBound course.session.lowering.backend course.session.tracked)) []
  have htake : L.take (limit.getD (Backend.solveBound course.session.lowering.backend
      course.session.tracked)) = limit.elim L L.take := by
    cases limit with
    | none => exact List.take_of_length_le (hbound L hnodup fun values => (hL values).mp)
    | some limit => rfl
  rw [List.nil_append, htake] at hcollect
  have hiteration : course.session.iteration? options =
      .ok { session := course.session, options } :=
    Session.iteration?_eq_ok_iff.mpr ⟨hobjective, rfl⟩
  simp only [Session.enumerate, hiteration, hcollect]
  exact ⟨_, rfl⟩

/-- Everything stays small when a constraint is posted that has a propagator of its own. -/
theorem Course.exists_small_of_post {scope : Scope} {course' : Course} {g : Account} {c : Constraint}
    (h : course.Accounts scope g) (hsmall : g.Small) (hc : InProcess.IsDirect c)
    (hadmissible : Command.Admissible scope course (.post c))
    (hperform : course.perform (.post c) = some course') (hfaultless : course'.faultless = true) :
    ∃ g', Session.Describes g' course'.session ∧ g'.Small := by
  have hknown : c.KnownTo g.registry := fun x hx => h.knows (hadmissible.1 x hx)
  obtain ⟨g', session, -, hs, ⟨_, ⟨-, -, hkept⟩, rfl⟩ | ⟨-, rfl⟩⟩ := after_cases
    (Session.keeps_post_of_direct hc hknown hadmissible.2 _ h.describes) hperform
  · exact ⟨g', hs, hkept hsmall⟩
  · cases hfaultless

/-- A command succeeds, and after it an enumeration without an objective finds the solutions. -/
def Course.enumeratesAfter (course : Course) (command : Command)
    (solutions : List (List (VarId × Int))) : Bool :=
  (course.perform command).any fun course =>
    course.faultless && course.session.objective.isNone &&
      match Session.enumerate none {} course.session with
      | .ok (found, none) _ => found == solutions
      | _ => false

theorem Course.exists_of_enumeratesAfter {command : Command}
    {solutions : List (List (VarId × Int))} (h : course.enumeratesAfter command solutions = true) :
    ∃ course' session, course.perform command = some course' ∧ course'.faultless = true ∧
      course'.session.objective = none ∧
        Session.enumerate none {} course'.session = .ok (solutions, none) session := by
  obtain ⟨course', hperform, h⟩ := (Option.any_eq_true _ _).mp h
  obtain ⟨h, hfound⟩ := Bool.and_eq_true_iff.mp h
  obtain ⟨hfaultless, hobjective⟩ := Bool.and_eq_true_iff.mp h
  split at hfound
  · next found session henumerate =>
    obtain rfl := eq_of_beq hfound
    exact ⟨course', session, hperform, hfaultless, Option.isNone_iff_eq_none.mp hobjective,
      henumerate⟩
  · cases hfound

section SmallDigit

/-- A digit is less than 3. -/
def smallDigit : Constraint := .comparison .less (.ofInt (digit 0)) (.constant 3)

theorem admissible_smallDigit : Command.Admissible .words (single (digit 0)) (.post smallDigit) := by
  refine ⟨fun x hx => .inl ?_, Constraint.plain_comparison (Expr.plain_ofInt _) ?_⟩
  · simpa [smallDigit, Constraint.occurrences, Expr.occurrences, Expr.ofInt, Expr.constant, Atom.vars,
      single, Course.create] using hx
  · exact plain_constant (Scope.admits_of_fits (by decide))

/-- There are three digits less than 3. -/
theorem enumeration_is_exact_smallDigit : ∃ course g,
    Reachable (Command.Admissible .words) course ∧ smallDigit ∈ course.accepted ∧
      course.session.objective = none ∧ Session.Describes g course.session ∧ g.Small ∧
      (∀ values, values ∈ [[(0, 0)], [(0, 1)], [(0, 2)]] ↔
        g.Solution course.session.tracked values) ∧
      (∀ values, values ∈ [[(0, 0)], [(0, 1)], [(0, 2)]] ↔
        InProcess.Extendable course.session.lowering course.session.tracked values) ∧
      ∃ session, Session.enumerate none {} course.session =
        .ok ([[(0, 0)], [(0, 1)], [(0, 2)]], none) session := by
  have hrun : (single (digit 0)).enumeratesAfter (.post smallDigit)
      [[(0, 0)], [(0, 1)], [(0, 2)]] = true := by decide +kernel
  obtain ⟨course, session, hperform, hfaultless, hobjective, hfound⟩ :=
    Course.exists_of_enumeratesAfter hrun
  have hreachable := (reachable_create rfl).step admissible_smallDigit hperform
  have haccounts : Course.Accounts .words _ (single (digit 0)) :=
    Course.accounts_create Course.accounts_start rfl
  obtain ⟨g, hs, hsmall⟩ := Course.exists_small_of_post haccounts
    (by simp [Account.Small, Account.know, Course.unwritten]) (.inl rfl) admissible_smallDigit
    hperform hfaultless
  obtain ⟨-, hexact⟩ := @enumeration_is_exact course {} hreachable hobjective rfl
  obtain ⟨L, -, hL, hmodels, -, hall⟩ := hexact g hs hsmall
  obtain ⟨session', henumerate⟩ := hall none
  obtain ⟨hfound, -⟩ := EStateM.Result.ok.inj (henumerate.symm.trans hfound)
  obtain rfl : L = [[(0, 0)], [(0, 1)], [(0, 2)]] := (Prod.mk.inj hfound).1
  have hc : smallDigit ∈ course.accepted := by
    rw [(Course.accepted_of_post hperform hfaultless).1]
    exact List.mem_cons_self
  exact ⟨course, g, hreachable, hc, hobjective, hs, hsmall, hL, hmodels, session', henumerate⟩

end SmallDigit

end FiniteDomain
