import FiniteDomain.Proofs.Session.Enumeration
import FiniteDomain.Proofs.Session.Persistence

/-!
# Which tracked variables can be read

After a solution was found, the values that a session reports belong to the domains of the variables.
A tracked variable has one if an accepted constraint binds it or an objective contains it. This is so
for every tracked variable if nothing was refused and none occurs as the only argument of an
all-equal constraint.
-/

namespace FiniteDomain

namespace InProcess

open Engine (Running)

variable {g : Account} {s s' : Lowering.State InProcess} {options : SolveOptions} {status : Status}

/-- A search that finds a solution has found no contradiction. -/
theorem not_doomed_of_found (h : Describes g s) (hrun : solve options s = .ok status s')
    (hfound : status.statistics.solutions ≠ 0) : ¬ Doomed s := by
  cases hlimit : options.timeLimit with
  | some limit =>
      simp only [solve, hlimit, Option.isSome_some, if_true] at hrun
      cases hrun
  | none =>
      have htracks := tracks_journal h.tracks #[]
      have hsolve := htracks.solve
      rw [solve_eq hlimit, onEngine] at hrun
      generalize Running.solve { s.backend.engine with journal := #[] } = r at hsolve hrun
      rcases r with ⟨outcome, e'⟩ | ⟨f, e'⟩
      · cases hrun
        obtain ⟨found, hsolved, -⟩ := hsolve
        obtain ⟨values, hvalues⟩ : ∃ values, values ∈ found :=
          List.exists_mem_of_length_pos (Nat.pos_of_ne_zero (hsolved.solutions_eq ▸ hfound))
        rintro (hinfeasible | hfalsum)
        · rw [hsolved.feasible hinfeasible] at hvalues
          cases hvalues
        · obtain ⟨-, -, haccepts⟩ := htracks.recalls.accepts hsolved hvalues
          obtain ⟨v, hv, hne⟩ := haccepts falsum (htracks.installed falsum hfalsum)
          obtain rfl := List.mem_singleton.mp hv
          exact hne rfl
      · cases hrun

end InProcess

open InProcess (Ready Supplied Doomed Account)

namespace Session

variable {g : Account} {s s' : Session InProcess} {options : SolveOptions} {x : Variable}

theorem not_doomed_of_solve (hs : Describes g s) (h : solve options s = .ok true s') :
    ¬ Doomed s.lowering := by
  have hanswer := InProcess.solving_solve hs.lowering options
  rw [solve_inProcess] at h
  cases hrun : InProcess.solve options s.lowering with
  | error stop lowering =>
      rw [hrun] at h
      cases h
  | ok status lowering =>
      rw [hrun] at h hanswer
      refine InProcess.not_doomed_of_found hs.lowering hrun fun hzero => ?_
      have hnone : status.unify.hasSolution = false := by simp [(unify_eq hanswer.2).1, hzero]
      obtain ⟨journal, hconclude⟩ := conclude_of_not_found hnone
        { s.cleared with lowering, runtime := some .measured }
      cases hconclude.symm.trans h

/-- The value of a supplied variable can be read after a solution was found. -/
theorem exists_value_of_supplied (hs : Describes g s) (h : solve options s = .ok true s')
    (hx : x ∈ s.tracked) (hsupplied : Supplied s.lowering x) : ∃ v, s'.value x.id = some v := by
  have hsolving := solving_solve hs options
  rw [h] at hsolving
  obtain ⟨τ, -, hvalues, -⟩ := hsolving.solution rfl
  obtain ⟨v, hv⟩ := hsupplied.resolve_right (not_doomed_of_solve hs h)
  have howner : x.id ∈ g.owners :=
    (hs.lowering.isSome_lookup_iff x.id).mp (Option.isSome_iff_exists.mpr ⟨v, hv⟩)
  refine ⟨τ x.id, ?_⟩
  rw [value, hvalues]
  exact InProcess.lookup_reading_iff.mpr ⟨⟨x, hx, rfl⟩, howner, rfl⟩

/-- Values that can be read belong to the domains of their variables. -/
theorem contains_of_value (hs : Describes g s) (h : solve options s = .ok true s') {v : Int}
    (hx : x ∈ s.tracked) (hv : s'.value x.id = some v) : x.domain.contains v = true := by
  have hsolving := solving_solve hs options
  rw [h] at hsolving
  obtain ⟨τ, hτ, hvalues, -⟩ := hsolving.solution rfl
  rw [value, hvalues] at hv
  obtain ⟨-, -, rfl⟩ := InProcess.lookup_reading_iff.mp hv
  exact hτ.1.contains (hs.tracked x hx)

end Session

namespace Course

variable {course course' : Course} {command : Command}

/-- What a command leads to: what was posted before still stands, and what is accepted or aimed at
now has its variables. -/
structure Goes (course course' : Course) : Prop where
  onward : Session.Onward course.session course'.session
  accepted_subset : course.accepted ⊆ course'.accepted
  accepted : ∀ c ∈ course'.accepted, c ∈ course.accepted ∨
    ∀ x ∈ c.bound, Supplied course'.session.lowering x
  aims : ∀ e ∈ course'.aims, e ∈ course.aims ∨
    ∀ x ∈ e.occurrences, Supplied course'.session.lowering x

/-- A new tracked variable is supplied, or occurs in an accepted constraint. -/
def TracksFrom (course course' : Course) : Prop :=
  ∀ x ∈ course'.session.tracked, x ∈ course.session.tracked ∨
    (∃ c ∈ course'.accepted, x ∈ c.occurrences) ∨ Supplied course'.session.lowering x

end Course

/-- The constraint or objective is not refused. -/
def Command.Taken (course : Course) : Command → Prop
  | add c => ∃ session, Session.add c course.session = .ok () session
  | post c => ∃ session, Session.post c course.session = .ok () session
  | optimise direction e => ∃ session, Session.setObjective e direction course.session = .ok () session
  | _ => True

namespace Course

variable {α : Type} {course course' : Course} {command : Command} {action : Session.Action InProcess α}
  {note : α → Course → Course}

/-- How an action of the session can end. -/
theorem after_eq_some (h : course.after action note = some course') :
    (∃ a session, action course.session = .ok a session ∧ course' = note a { course with session }) ∨
      ∃ e session, action course.session = .error (.error e) session ∧
        course' = { course with session, faultless := false } := by
  rw [after] at h
  split at h
  · next a session hrun => exact .inl ⟨a, session, hrun, (Option.some.inj h).symm⟩
  · next e session hrun => exact .inr ⟨e, session, hrun, (Option.some.inj h).symm⟩
  · cases h

theorem taken_of_post {c : Constraint} (h : course.perform (.post c) = some course')
    (hfaultless : course'.faultless = true) : Command.Taken course (.post c) := by
  rcases after_eq_some h with ⟨_, session, hrun, -⟩ | ⟨_, _, _, rfl⟩
  · exact ⟨session, hrun⟩
  · cases hfaultless

theorem goes_of_onward (h : Session.Onward course.session course'.session)
    (haccepted : course'.accepted = course.accepted) (haims : course'.aims = course.aims) :
    course.Goes course' where
  onward := h
  accepted_subset := fun _ hc => haccepted ▸ hc
  accepted := fun _ hc => .inl (haccepted ▸ hc)
  aims := fun _ he => .inl (haims ▸ he)

/-- An action that tracks nothing, and of which nothing but an error is noted. -/
theorem goes_of_settling (hs : Ready course.session.lowering) (hsettling : Session.Settling action)
    (hnote : ∀ a course, (note a course).session = course.session ∧
      (note a course).accepted = course.accepted ∧ (note a course).aims = course.aims)
    (h : course.after action note = some course') :
    course.Goes course' ∧ course.TracksFrom course' := by
  have hsettles := hsettling course.session hs
  rcases after_eq_some h with ⟨a, session, hrun, rfl⟩ | ⟨e, session, hrun, rfl⟩
  · rw [hrun] at hsettles
    obtain ⟨hsession, haccepted, haims⟩ := hnote a { course with session }
    refine ⟨goes_of_onward (hsession ▸ hsettles.toOnward) haccepted haims, fun x hx => .inl ?_⟩
    rw [hsession] at hx
    exact hsettles.tracked_eq ▸ hx
  · rw [hrun] at hsettles
    exact ⟨goes_of_onward hsettles.toOnward rfl rfl, fun x hx => .inl (hsettles.tracked_eq ▸ hx)⟩

/-- An action that tracks variables, and of which is noted what it was given. -/
theorem goes_of_supplies {xs ys : List Variable} {action : Session.Action InProcess Unit}
    {note : Unit → Course → Course}
    (hsupplies : Session.Supplies xs ys course.session (action course.session))
    (hnote : ∀ session, Session.Onward course.session session →
      (∀ x ∈ ys, Supplied session.lowering x) →
      (∀ x ∈ session.tracked, x ∈ course.session.tracked ∨ x ∈ xs ∨ Supplied session.lowering x) →
      course.Goes (note () { course with session }) ∧
        course.TracksFrom (note () { course with session }))
    (h : course.after action note = some course') :
    course.Goes course' ∧ ((∃ session, action course.session = .ok () session) →
      course.TracksFrom course') := by
  rcases after_eq_some h with ⟨_, session, hrun, rfl⟩ | ⟨e, session, hrun, rfl⟩
  · rw [hrun] at hsupplies
    obtain ⟨honward, hsupplied, htracked⟩ := hsupplies
    exact (hnote session honward hsupplied htracked).imp_right fun htracks _ => htracks
  · rw [hrun] at hsupplies
    exact ⟨goes_of_onward hsupplies rfl rfl, fun ⟨session, htaken⟩ => by cases hrun.symm.trans htaken⟩

theorem goes_accept {c : Constraint} {session : Session InProcess}
    (honward : Session.Onward course.session session)
    (hsupplied : ∀ x ∈ c.bound, Supplied session.lowering x)
    (htracked : ∀ x ∈ session.tracked, x ∈ course.session.tracked ∨ x ∈ c.occurrences ∨
      Supplied session.lowering x) :
    course.Goes (accept c () { course with session }) ∧
      course.TracksFrom (accept c () { course with session }) := by
  refine ⟨⟨honward, fun _ hd => List.mem_cons_of_mem c hd, fun d hd => ?_, fun _ he => .inl he⟩,
    fun x hx => (htracked x hx).imp_right (Or.imp_left fun hx => ⟨c, List.mem_cons_self, hx⟩)⟩
  rcases List.mem_cons.mp hd with rfl | hd
  · exact .inr hsupplied
  · exact .inl hd

theorem goes_aim {e : Expr} {session : Session InProcess}
    (honward : Session.Onward course.session session)
    (hsupplied : ∀ x ∈ e.occurrences, Supplied session.lowering x)
    (htracked : ∀ x ∈ session.tracked, x ∈ course.session.tracked ∨ x ∈ e.occurrences ∨
      Supplied session.lowering x) :
    course.Goes (aim e () { course with session }) ∧
      course.TracksFrom (aim e () { course with session }) := by
  refine ⟨⟨honward, fun _ hd => hd, fun _ hd => .inl hd, fun d hd => ?_⟩,
    fun x hx => (htracked x hx).imp_right fun hx => .inr (hx.elim (hsupplied x) id)⟩
  rcases List.mem_cons.mp hd with rfl | hd
  · exact .inr hsupplied
  · exact .inl hd

/-- Every command goes on, and one that is not refused tracks only what it can account for. -/
theorem goes_perform (hs : Ready course.session.lowering)
    (hnormalizer : course.session.normalizer = .canonical)
    (h : course.perform command = some course') :
    course.Goes course' ∧ (command.Taken course → course.TracksFrom course') := by
  cases command with
  | create x =>
      obtain rfl := Option.some.inj h
      exact ⟨goes_of_onward (Session.onward_of_backend hs rfl) rfl rfl, fun _ x hx => .inl hx⟩
  | add c =>
      refine goes_of_supplies ?_ (fun _ => goes_accept) h
      rw [Session.add_eq hnormalizer]
      exact Session.supplies_post hs c
  | post c => exact goes_of_supplies (Session.supplies_post hs c) (fun _ => goes_accept) h
  | optimise direction e =>
      exact goes_of_supplies (Session.supplies_setObjective hs hnormalizer) (fun _ => goes_aim) h
  | solve options =>
      exact (goes_of_settling hs (Session.settling_solve options)
        (fun _ _ => ⟨rfl, rfl, rfl⟩) h).imp_right fun htracked _ => htracked
  | iterate options steps =>
      rw [perform] at h
      split at h
      · next it hit =>
        obtain ⟨-, rfl⟩ := Session.iteration?_eq_ok_iff.mp hit
        obtain ⟨it', hadvance, rfl⟩ := Option.map_eq_some_iff.mp h
        have hremains := Iteration.remains_of_advance hs hadvance
        exact ⟨goes_of_onward hremains.toOnward rfl rfl,
          fun _ x hx => .inl (hremains.tracked_eq ▸ hx)⟩
      · obtain rfl := Option.some.inj h
        exact ⟨goes_of_onward (Session.onward_of_backend hs rfl) rfl rfl, fun _ x hx => .inl hx⟩
  | enumerate limit options =>
      have hnote : ∀ p course, (noteEnd p course).session = course.session ∧
          (noteEnd p course).accepted = course.accepted ∧ (noteEnd p course).aims = course.aims :=
        fun _ _ => ⟨rfl, rfl, rfl⟩
      exact (goes_of_settling hs (Session.settling_enumerate limit options) hnote h).imp_right
        fun htracked _ => htracked

/-! ## Histories -/

/-- What was accepted and aimed at has its variables. -/
structure Covered (course : Course) : Prop where
  accepted : ∀ c ∈ course.accepted, ∀ x ∈ c.bound, Supplied course.session.lowering x
  aims : ∀ e ∈ course.aims, ∀ x ∈ e.occurrences, Supplied course.session.lowering x

/-- Every tracked variable is supplied, or occurs in an accepted constraint. -/
def Traced (course : Course) : Prop := ∀ x ∈ course.session.tracked,
  (∃ c ∈ course.accepted, x ∈ c.occurrences) ∨ Supplied course.session.lowering x

theorem Covered.goes (h : course.Covered) (hgoes : course.Goes course') : course'.Covered where
  accepted := fun c hc => (hgoes.accepted c hc).elim
    (fun hc x hx => hgoes.onward.later.supplied (h.accepted c hc x hx)) id
  aims := fun e he => (hgoes.aims e he).elim
    (fun he x hx => hgoes.onward.later.supplied (h.aims e he x hx)) id

theorem Traced.goes (h : course.Traced) (hgoes : course.Goes course')
    (htracks : course.TracksFrom course') : course'.Traced := fun x hx => by
  rcases htracks x hx with hx | hx
  · rcases h x hx with ⟨c, hc, hx⟩ | hx
    · exact .inl ⟨c, hgoes.accepted_subset hc, hx⟩
    · exact .inr (hgoes.onward.later.supplied hx)
  · exact hx

/-- Along every history the accepted constraints and the objectives have their variables, and
without a refusal the tracked variables are theirs. -/
theorem covered_of_reachable {permitted : Course → Command → Prop} {scope : Scope}
    (hpermitted : ∀ course command, permitted course command → command.Admissible scope course)
    (h : Reachable permitted course) : course.Covered ∧
      ((∀ course command, permitted course command → command.Taken course) → course.Traced) := by
  induction h with
  | start => exact ⟨⟨by simp, by simp⟩, fun _ => by simp [Traced]⟩
  | @step course course' command hreachable hcommand hperform ih =>
      obtain ⟨g, hg⟩ := exists_accounts hpermitted hreachable
      obtain ⟨hgoes, htracks⟩ :=
        goes_perform hg.describes.lowering.ready hg.describes.normalizer_eq hperform
      exact ⟨ih.1.goes hgoes,
        fun htaken => (ih.2 htaken).goes hgoes (htracks (htaken course command hcommand))⟩

end Course

variable {course : Course} {options : SolveOptions} {session : Session InProcess}

/-- Whatever was done before, a variable that an accepted constraint binds or that an objective
contains can be read after a solution was found, and has a value of its domain. If no constraint and
no objective was refused then all tracked variables can be read, but those that are the only argument
of an all-equal constraint and occur nowhere else. -/
theorem solution_reads_bound (h : Reachable (Command.Admissible .words) course)
    (hsolve : Session.solve options course.session = .ok true session) :
    session.tracked = course.session.tracked ∧
      (∀ x ∈ session.tracked, ∀ v, session.value x.id = some v → x.domain.contains v = true) ∧
      (∀ x ∈ session.tracked, ((∃ c ∈ course.accepted, x ∈ c.bound) ∨
        ∃ e ∈ course.aims, x ∈ e.occurrences) → ∃ v, session.value x.id = some v) ∧
      (Reachable (fun course command => command.Admissible .words course ∧ command.Taken course)
          course →
        ∀ x ∈ session.tracked, (∃ v, session.value x.id = some v) ∨
          ∃ c ∈ course.accepted, x ∈ c.occurrences ∧ x ∉ c.bound) := by
  obtain ⟨g, hg⟩ := Course.exists_accounts (fun _ _ => id) h
  have hsolving := Session.solving_solve hg.describes options
  rw [hsolve] at hsolving
  obtain ⟨hcovered, -⟩ := Course.covered_of_reachable (fun _ _ => id) h
  have hread : ∀ x ∈ course.session.tracked, Supplied course.session.lowering x →
      ∃ v, session.value x.id = some v := fun x => Session.exists_value_of_supplied hg.describes hsolve
  rw [hsolving.tracked_eq]
  refine ⟨rfl, fun x hx v => Session.contains_of_value hg.describes hsolve hx,
    fun x hx hbound => hread x hx ?_, fun htaken x hx => ?_⟩
  · rcases hbound with ⟨c, hc, hx⟩ | ⟨e, he, hx⟩
    · exact hcovered.accepted c hc x hx
    · exact hcovered.aims e he x hx
  · obtain ⟨-, htraced⟩ := Course.covered_of_reachable (fun _ _ => And.left) htaken
    rcases htraced (fun _ _ => And.right) x hx with ⟨c, hc, hoccurs⟩ | hsupplied
    · by_cases hbound : x ∈ c.bound
      · exact .inl (hread x hx (hcovered.accepted c hc x hbound))
      · exact .inr ⟨c, hc, hoccurs, hbound⟩
    · exact .inl (hread x hx hsupplied)

section SmallDigit

/-- The digit less than 3 that is found can be read. -/
theorem solution_reads_bound_smallDigit : ∃ course session,
    Reachable (Command.Admissible .words) course ∧
      Session.solve {} course.session = .ok true session ∧
      ∀ x ∈ session.tracked, ∃ v, session.value x.id = some v ∧ x.domain.contains v = true := by
  have hrun : (single (digit 0)).solvesAfter (.post smallDigit) (fun found _ => found) = true := by
    decide +kernel
  obtain ⟨course, found, session, hperform, hfaultless, hsolve, rfl⟩ :=
    Course.exists_of_solvesAfter hrun
  have htaken := Course.taken_of_post hperform hfaultless
  have hreachable := (reachable_create rfl).step admissible_smallDigit hperform
  obtain ⟨-, hdomain, -, hread⟩ := solution_reads_bound hreachable hsolve
  refine ⟨course, session, hreachable, hsolve, fun x hx => ?_⟩
  have htracked := hread ((reachable_create ⟨rfl, trivial⟩).step ⟨admissible_smallDigit, htaken⟩ hperform)
  rcases htracked x hx with ⟨v, hv⟩ | ⟨c, hc, hoccurs, hbound⟩
  · exact ⟨v, hv, hdomain x hx v hv⟩
  · rw [(Course.accepted_of_post hperform hfaultless).1] at hc
    obtain rfl := List.mem_singleton.mp hc
    exact absurd hoccurs hbound

/-- The digit is equal to itself. -/
def selfEqual : Constraint := .global (.allEqual [.ofInt (digit 0)])

theorem admissible_selfEqual : Command.Admissible .words (single (digit 0)) (.post selfEqual) := by
  refine ⟨fun x hx => .inl ?_, List.forall_mem_singleton.mpr (Expr.plain_ofInt _), ?_, ?_⟩
  · simpa [selfEqual, Constraint.occurrences, Expr.occurrences, Expr.ofInt, Atom.vars, Global.args,
      single, Course.create] using hx
  · exact fun _ => by decide
  · exact fun _ h => by cases h

/-- The digit is tracked, but it has no value in the solution that is found. -/
theorem selfEqual_leaves_unread : ∃ course session x,
    Reachable (Command.Admissible .words) course ∧ course.faultless = true ∧
      Session.solve {} course.session = .ok true session ∧
      x ∈ session.tracked ∧ session.value x.id = none := by
  have hrun : (single (digit 0)).solvesAfter (.post selfEqual) (fun found session =>
      found && session.tracked.any fun x => (session.value x.id).isNone) = true := by decide +kernel
  obtain ⟨course, found, session, hperform, hfaultless, hsolve, hcheck⟩ :=
    Course.exists_of_solvesAfter hrun
  obtain ⟨rfl, hunread⟩ := Bool.and_eq_true_iff.mp hcheck
  obtain ⟨x, hx, hnone⟩ := List.any_eq_true.mp hunread
  exact ⟨course, session, x, (reachable_create rfl).step admissible_selfEqual hperform, hfaultless,
    hsolve, hx, Option.isNone_iff_eq_none.mp hnone⟩

end SmallDigit

end FiniteDomain
