import FiniteDomain.Proofs.InProcess.Refusals
import FiniteDomain.Proofs.Session.Enumeration
import FiniteDomain.Proofs.Session.Persistence

/-!
# What a session keeps of a refused constraint

A constraint that is refused may have been posted in part: the pieces before the one that is refused
stay, and exclude solutions. This happens for conjunctions, and where a sum has too few or too many
weights. Any other constraint is refused before anything is posted.
-/

namespace FiniteDomain

open InProcess

variable {course : Course} {c : Constraint}

namespace Session

variable {s session : Session InProcess} {stop : Stop}

/-- A session posts a constraint as its backend does, and tracks its variables. -/
theorem eq_of_post_error (h : post c s = .error stop session) : ∃ journal lowering,
    InProcess.post c { s.lowering with journal } = .error stop lowering ∧
      session = { s with
        lowering, tracked := c.vars.foldl (fun tracked x => x.addTo tracked) s.tracked } := by
  obtain ⟨journal, hpost⟩ := post_apply c s
  rw [hpost, onBackend] at h
  split at h
  · cases h
  · next hrun =>
    cases h
    exact ⟨journal, _, hrun, rfl⟩

end Session

/-- When a constraint is refused, no solution is gained, and the session tracks the same variables
before any others, which are variables of the constraint. The solutions that are left are those that
what was posted before the refused piece leaves. So none is lost unless the constraint is a
conjunction, or has a sum with too few or too many weights. -/
theorem refusal_keeps_pieces {action : Session.Action InProcess Unit} {e : LoweringError}
    {session : Session InProcess} (h : Reachable (Command.Admissible .words) course)
    (haction : action = Session.post c ∨ action = Session.add c)
    (hrun : action course.session = .error (.error e) session) :
    (course.session.tracked <+: session.tracked ∧
      ∀ x ∈ session.tracked, x ∈ course.session.tracked ∨ x ∈ c.occurrences) ∧
    (∀ τ, Permits course.session.lowering session.lowering τ →
      Permits course.session.lowering course.session.lowering τ) ∧
    (∃ journal s, Leaves c { course.session.lowering with journal } s ∧
      ∀ τ, Permits course.session.lowering session.lowering τ ↔
        Permits course.session.lowering s τ) ∧
    (c.Balanced → (∀ args, c ≠ .connective .and args) →
      ∀ τ, Permits course.session.lowering session.lowering τ ↔
        Permits course.session.lowering course.session.lowering τ) := by
  obtain ⟨g, hg⟩ := Course.exists_accounts (fun _ _ => id) h
  have hpost : Session.post c course.session = .error (.error e) session := by
    rcases haction with rfl | rfl
    · exact hrun
    · rwa [Session.add_eq hg.describes.normalizer_eq] at hrun
  obtain ⟨journal, lowering, hrefused, rfl⟩ := Session.eq_of_post_error hpost
  have hready : Ready { course.session.lowering with journal } :=
    hg.describes.lowering.ready.of_backend rfl
  have hnoted : Later course.session.lowering { course.session.lowering with journal } :=
    later_of_backend rfl
  obtain ⟨s, hleaves, hpermits⟩ := permits_of_refused hready hnoted.keeping hrefused
  have hlater : Later course.session.lowering s := hnoted.trans (hleaves.later hready).2
  refine ⟨⟨prefix_foldl_addTo,
    fun x hx => (mem_foldl_addTo hx).imp_right mem_of_collected⟩,
    fun τ hτ => hlater.permits ((hpermits τ).mp hτ), ⟨journal, s, hleaves, hpermits⟩,
    fun hbalanced hand τ => (hpermits τ).trans ?_⟩
  rw [hleaves.eq hbalanced hand]
  exact Iff.rfl

/-! ## Histories that are computed -/

/-- A command succeeds, and after it a constraint is refused with a result that passes a check. -/
def Course.refusesAfter (course : Course) (command : Command) (c : Constraint)
    (check : Session InProcess → Session InProcess → Bool) : Bool :=
  (course.perform command).any fun course => match Session.post c course.session with
    | .error (.error _) session => check course.session session
    | _ => false

theorem Course.exists_of_refusesAfter {command : Command}
    {check : Session InProcess → Session InProcess → Bool}
    (h : course.refusesAfter command c check = true) : ∃ course' e session,
      course.perform command = some course' ∧
        Session.post c course'.session = .error (.error e) session ∧
        check course'.session session = true := by
  obtain ⟨course', hperform, h⟩ := (Option.any_eq_true _ _).mp h
  split at h
  · next e session hrun => exact ⟨course', e, session, hperform, hrun, h⟩
  · cases h

namespace Session

variable {bound s : Session InProcess} {id : VarId} {value : Int}

/-- One value for all variables is a model, as far as they were bound in the first state. -/
def permits (bound s : Session InProcess) (value : Int) : Bool :=
  !s.lowering.backend.engine.infeasible &&
    decide (s.lowering.backend.engine.store.Admits fun _ => value) &&
    decide (∀ p ∈ s.lowering.backend.engine.propagators, p.Holds fun _ => value) &&
    bound.lowering.backend.views.all fun p => p.2.eval (fun _ => value) == value

theorem permits_of_permits (h : permits bound s value = true) :
    Permits bound.lowering s.lowering fun _ => value := by
  simp only [permits, Bool.and_eq_true, Bool.not_eq_true', decide_eq_true_eq, beq_iff_eq,
    List.all_eq_true] at h
  obtain ⟨⟨⟨hfeasible, hadmits⟩, hholds⟩, hviews⟩ := h
  refine ⟨fun _ => value, ⟨hfeasible, hadmits, hholds⟩, fun id v hv => hviews (id, v) ?_⟩
  obtain ⟨first, rest, hsplit, -⟩ := List.lookup_eq_some_iff.mp hv
  rw [hsplit]
  exact List.mem_append_right _ List.mem_cons_self

/-- The value was taken from the variable of the engine that was bound for this one. -/
def refutes (bound s : Session InProcess) (id : VarId) (value : Int) : Bool :=
  (List.range s.lowering.backend.engine.numVariables).any fun i =>
    bound.lowering.backend.views.lookup id == some (.ofVar i) &&
      !(s.lowering.backend.engine.store.set i).contains value

theorem not_permits_of_refutes {τ : VarId → Int} (h : refutes bound s id (τ id) = true) :
    ¬ Permits bound.lowering s.lowering τ := by
  rintro ⟨a, ⟨-, hadmits, -⟩, hviews⟩
  simp only [refutes, List.any_eq_true, Bool.and_eq_true, beq_iff_eq, Bool.not_eq_true',
    List.mem_range] at h
  obtain ⟨i, hi, hview, hlost⟩ := h
  have hvalue : a i = τ id := by
    rw [← hviews id _ hview, Engine.View.eval_ofVar]
  have hkept := hadmits i hi
  rw [hvalue, hlost] at hkept
  cases hkept

end Session

section SmallDigit

/-- One digit is its own successor, or leads nowhere. There is no propagator for this. -/
def subcircuit : Constraint := .global (.subcircuit [.ofInt (digit 1)])

/-- The other digit is at least 5 besides. -/
def atLeastFive : Constraint :=
  .connective .and [.comparison .greaterOrEqual (.ofInt (digit 0)) (.constant 5), subcircuit]

/-- The other digit is positive besides. -/
def positive : Constraint :=
  .connective .and [.comparison .greaterOrEqual (.ofInt (digit 0)) (.constant 1), subcircuit]

theorem reachable_smallDigit (h : twoDigits.perform (.post smallDigit) = some course) :
    Reachable (Command.Admissible .words) course := by
  have hfirst : Reachable (Command.Admissible .words) (single (digit 0)) := reachable_create rfl
  have hsecond : Command.Admissible .words (single (digit 0)) (.create (.int (digit 1))) := rfl
  have hcreated : Reachable (Command.Admissible .words) twoDigits := hfirst.step hsecond rfl
  have hpost : Command.Admissible .words twoDigits (.post smallDigit) :=
    ⟨fun x hx => .inl ?_, admissible_smallDigit.2⟩
  · exact hcreated.step hpost h
  simp only [smallDigit, Constraint.occurrences, Expr.occurrences, Expr.ofInt, Expr.constant,
    Atom.vars, List.append_nil, List.mem_singleton] at hx
  simp [hx, twoDigits, single, Course.create]

/-- Posting that the digit is less than 3 succeeds, and a constraint is refused after it. -/
theorem exists_refused {check : Session InProcess → Session InProcess → Bool}
    (h : twoDigits.refusesAfter (.post smallDigit) c check = true) : ∃ course e session,
      Reachable (Command.Admissible .words) course ∧
        Session.post c course.session = .error (.error e) session ∧
        check course.session session = true := by
  obtain ⟨course, e, session, hperform, hrefused, hcheck⟩ := Course.exists_of_refusesAfter h
  exact ⟨course, e, session, reachable_smallDigit hperform, hrefused, hcheck⟩

/-- One digit is less than 3. A constraint that is refused as a whole leaves its values as they are. A
conjunction that is refused at its second part leaves what its first part demands: 1 is still
possible, and 0 no longer is. -/
theorem refusal_keeps_pieces_subcircuit : (∃ course e session,
    Reachable (Command.Admissible .words) course ∧
      Session.post subcircuit course.session = .error (.error e) session ∧
      ∀ τ, Permits course.session.lowering session.lowering τ ↔
        Permits course.session.lowering course.session.lowering τ) ∧
    ∃ course e session nextId journal s, Reachable (Command.Admissible .words) course ∧
      Session.post positive course.session = .error (.error e) session ∧
      InProcess.post (.comparison .greaterOrEqual (.ofInt (digit 0)) (.constant 1))
        { course.session.lowering with nextId, journal } = .ok () s ∧
      (∀ τ, Permits course.session.lowering session.lowering τ ↔
        Permits course.session.lowering s τ) ∧
      (Permits course.session.lowering course.session.lowering fun _ => 0) ∧
      (¬ Permits course.session.lowering session.lowering fun _ => 0) ∧
      Permits course.session.lowering session.lowering fun _ => 1 := by
  have hbalanced : subcircuit.Balanced :=
    ⟨trivial, List.forall_mem_singleton.mpr (Expr.everywhere_of_isAtom rfl trivial)⟩
  constructor
  · have hrun : twoDigits.refusesAfter (.post smallDigit) subcircuit (fun _ _ => true) = true := by
      decide +kernel
    obtain ⟨course, e, session, hreachable, hrefused, -⟩ := exists_refused hrun
    exact ⟨course, e, session, hreachable, hrefused,
      (refusal_keeps_pieces hreachable (.inl rfl) hrefused).2.2.2 hbalanced nofun⟩
  · have hrun : twoDigits.refusesAfter (.post smallDigit) positive (fun before after =>
        before.permits before 0 && before.refutes after 0 0 && before.permits after 1) = true := by
      decide +kernel
    obtain ⟨course, e, session, hreachable, hrefused, hcheck⟩ := exists_refused hrun
    simp only [Bool.and_eq_true] at hcheck
    obtain ⟨⟨hzero, hlost⟩, hone⟩ := hcheck
    obtain ⟨journal, s, hleaves, hpermits⟩ :=
      (refusal_keeps_pieces hreachable (.inl rfl) hrefused).2.2.1
    have hfirst : ∀ d ∈ [Constraint.comparison .greaterOrEqual (.ofInt (digit 0)) (.constant 1)],
        d.Balanced ∧ d.Accepted := List.forall_mem_singleton.mpr
      ⟨⟨Expr.everywhere_of_isAtom rfl trivial, Expr.everywhere_of_isAtom rfl trivial⟩,
        .comparison _ _ _⟩
    obtain ⟨g, hg⟩ := Course.exists_accounts (fun _ _ => id) hreachable
    obtain ⟨nextId, hposted⟩ := hleaves.posted_and (hg.describes.lowering.ready.of_backend rfl) rfl
      rfl hfirst hbalanced (Constraint.not_accepted_subcircuit _) nofun
    exact ⟨course, e, session, nextId, _, s, hreachable, hrefused, ok_of_forM_singleton hposted,
      hpermits, Session.permits_of_permits hzero, Session.not_permits_of_refutes hlost,
      Session.permits_of_permits hone⟩

/-- One digit is less than 3. A refused conjunction says that it is at least 5, so that no solution
is left, and the other digit is tracked. -/
theorem refused_conjunction_loses : ∃ course e session,
    Reachable (Command.Admissible .words) course ∧
      Session.post atLeastFive course.session = .error (.error e) session ∧
      session.tracked ≠ course.session.tracked ∧
      ¬ ∀ τ, Permits course.session.lowering session.lowering τ ↔
        Permits course.session.lowering course.session.lowering τ := by
  have hrun : twoDigits.refusesAfter (.post smallDigit) atLeastFive (fun before after =>
      before.permits before 0 && after.lowering.backend.engine.infeasible &&
        decide (before.tracked.length < after.tracked.length)) = true := by decide +kernel
  obtain ⟨course, e, session, hreachable, hrefused, hcheck⟩ := exists_refused hrun
  simp only [Bool.and_eq_true, decide_eq_true_eq] at hcheck
  obtain ⟨⟨hzero, hinfeasible⟩, hlonger⟩ := hcheck
  refine ⟨course, e, session, hreachable, hrefused, fun heq => ?_, fun hsame => ?_⟩
  · exact absurd (congrArg List.length heq) hlonger.ne'
  · obtain ⟨a, ⟨hfeasible, -⟩, -⟩ := (hsame _).mpr (Session.permits_of_permits hzero)
    rw [hinfeasible] at hfeasible
    cases hfeasible

end SmallDigit

end FiniteDomain
