import FiniteDomain.Proofs.Session.Answers

/-!
# Verdicts on a model

A session finds a model unsatisfiable, or a solution optimal, with its auxiliary variables in it.
They take 32-bit values only, and their definitions hold unconditionally. So a verdict is about the
values under which every named expression has a value of 32 bits; other solutions are lost.
-/

namespace FiniteDomain

open InProcess (Account Imposes)
open Session (Describes SameAim)

/-- The command goes on with a model in which nothing has failed so far. -/
def Command.Models (course : Course) (command : Command) : Prop :=
  course.faultless = true ∧ match command with
    | .create x => x.id = course.session.lowering.nextId
    | .add c | .post c => (∀ x ∈ c.occurrences, x ∈ course.created) ∧ c.Plain .modest
    | .optimise _ e => (∀ x ∈ e.occurrences, x ∈ course.created) ∧ e.Plain .modest
    | .solve _ => True
    | _ => False

namespace Course

variable {g g' : Account} {course course' : Course} {command : Command} {session : Session InProcess}
  {τ : VarId → Int}

/-- The values solve the model: they are of the domains and make every constraint true. All
expressions that are named have values that fit into 32 bits. -/
structure RealisedBy (course : Course) (τ : VarId → Int) : Prop where
  domains : ∀ x ∈ course.created, x.domain.contains (τ x.id) = true
  accepted : ∀ c ∈ course.accepted, c.Realised τ
  aims : ∀ e ∈ course.aims, ∀ o ∈ e.named, o.Representable τ

/-- What the engine optimises is the objective, where that has a value. -/
def Pursues (g : Account) (course : Course) : Prop :=
  ∀ e direction, course.session.objective = some (e, direction) →
    (∀ x ∈ e.occurrences, x ∈ course.created) ∧
    ∃ v, g.objective = some (direction, v) ∧
      ∀ τ, g.Allows τ → ∀ w, e.evaluate (total τ) = .ok w → v.eval (g.valuation τ) = w

/-- The created variables have these values in a solution of what was posted. -/
def Retains (g : Account) (course : Course) (τ : VarId → Int) : Prop :=
  ∃ τ', (∀ x ∈ course.created, τ' x.id = τ x.id) ∧ g.Meets τ'

/-- Nothing that realises the model was lost. -/
structure Spans (g : Account) (course : Course) : Prop where
  accounts : Accounts .modest g course
  retained : ∀ τ, course.RealisedBy τ → Retains g course τ
  pursues : Pursues g course

theorem Pursues.mono (h : Pursues g course) (hs : Describes g course.session) (hle : g.Grows g')
    (hsame : SameAim g g' course.session session) : Pursues g' { course with session } := by
  intro e direction hobj
  obtain ⟨hover, hoptimises⟩ := h e direction (hsame.session.symm.trans hobj)
  exact ⟨hover, Session.Optimises.mono hoptimises hs hle hsame.account⟩

/-- What was imposed does not lose values that need not be lost. -/
theorem Retains.imposes {S C : (VarId → Int) → Prop} (h : Retains g course τ)
    (haccounts : Accounts .modest g course) (himposes : Imposes .modest g g' S C)
    (hC : ∀ τ', (∀ x ∈ course.created, τ' x.id = τ x.id) → C τ') : Retains g' course τ := by
  obtain ⟨τ₁, hagree₁, hτ₁⟩ := h
  obtain ⟨τ₂, hagree₂, hτ₂⟩ := himposes.complete rfl τ₁ hτ₁ (hC τ₁ hagree₁)
  refine ⟨τ₂, fun x hx => ?_, hτ₂⟩
  rw [hagree₂ x.id (haccounts.created x hx).1, hagree₁ x hx]

theorem Spans.create {x : Variable} (h : Spans g course)
    (hx : x.id = course.session.lowering.nextId) :
    Spans (g.know (g.registry.extend x)) (course.create x) where
  accounts := accounts_create h.accounts hx
  retained := fun τ hτ => by
    have hg := h.accounts.describes.lowering.consistent
    have hid : x.id = g.registry.next := hx.trans h.accounts.describes.lowering.next_eq
    have hle := g.registry.le_extend x
    obtain ⟨hdomain, hdomains⟩ := List.forall_mem_cons.mp hτ.domains
    obtain ⟨τ₁, hagree, hτ₁⟩ := h.retained τ ⟨hdomains, hτ.accepted, hτ.aims⟩
    refine ⟨Function.update τ₁ g.registry.next (τ x.id), List.forall_mem_cons.mpr ⟨?_, ?_⟩, ?_⟩
    · rw [hid, Function.update_self]
    · intro y hy
      rw [Function.update_of_ne (h.accounts.created y hy).1.ne, hagree y hy]
    · exact hτ₁.of_agree hg (Account.consistent_know hg hle) (Account.grows_know hle) rfl
        (agree_update _ _ _) (Registry.respects_extend hτ₁.1 hdomain)
  pursues := fun e direction hobj => by
    obtain ⟨hover, hv⟩ := h.pursues e direction hobj
    refine ⟨fun y hy => List.mem_cons_of_mem _ (hover y hy), ?_⟩
    obtain ⟨v, hv, heval⟩ := hv
    exact ⟨v, hv, fun τ hτ => heval τ ⟨hτ.1.mono (g.registry.le_extend x), hτ.2⟩⟩

/-- Adding and posting a constraint go on alike. -/
theorem Spans.accept {c : Constraint} {action : Session.Action InProcess Unit} (h : Spans g course)
    (hkeeps : Session.Keeps g action fun _ g' => InProcess.Posts .modest g g' c)
    (hover : ∀ x ∈ c.occurrences, x ∈ course.created)
    (hafter : course.after action (accept c) = some course') (hfaultless : course'.faultless = true) :
    ∃ g', Spans g' course' := by
  have hs := h.accounts.describes
  obtain ⟨g', session, hle, hs', ⟨_, ⟨hsame, hposts⟩, rfl⟩ | ⟨-, rfl⟩⟩ :=
    after_cases (hkeeps course.session hs) hafter
  · refine ⟨g', accounts_accept (h.accounts.mono hle hs') hposts, fun τ hτ => ?_,
      h.pursues.mono hs hle hsame⟩
    obtain ⟨hc, haccepted⟩ := List.forall_mem_cons.mp hτ.accepted
    exact (h.retained τ ⟨hτ.domains, haccepted, hτ.aims⟩).imposes h.accounts hposts
      fun τ' hagree => hc.congr fun x hx => hagree x (hover x hx)
  · cases hfaultless

theorem Spans.aim {e : Expr} {direction : Direction} (h : Spans g course) (hle : g.Grows g')
    (hs : Describes g' session) (haimed : Session.Aimed .modest g e direction () g' session)
    (hover : ∀ x ∈ e.occurrences, x ∈ course.created) :
    Spans g' (aim e () { course with session }) := by
  obtain ⟨hobjective, v, hv, himposes⟩ := haimed
  have hmono := h.accounts.mono hle hs
  refine ⟨⟨hmono.describes, hmono.created, hmono.assured⟩, fun τ hτ => ?_, ?_⟩
  · obtain ⟨he, haims⟩ := List.forall_mem_cons.mp hτ.aims
    exact (h.retained τ ⟨hτ.domains, hτ.accepted, haims⟩).imposes h.accounts himposes
      fun τ' hagree o ho => (he o ho).congr fun x hx =>
        hagree x (hover x (Expr.mem_occurrences_of_named ho hx))
  · intro e' direction' hobj
    obtain ⟨rfl, rfl⟩ := Prod.mk.inj (Option.some.inj (hobjective.symm.trans hobj))
    exact ⟨hover, v, hv, fun τ hτ => himposes.sound nofun τ hτ⟩

theorem spans_start : Spans unwritten {} where
  accounts := accounts_start
  retained := fun τ _ => ⟨τ, fun _ _ => rfl, fun id hid => absurd hid (Nat.not_lt_zero id),
    by simp [unwritten]⟩
  pursues := nofun

/-- Every command without an error goes on with a model of which nothing was lost. -/
theorem Spans.perform (h : Spans g course) (hmodels : command.Models course)
    (hperform : course.perform command = some course') (hfaultless : course'.faultless = true) :
    ∃ g', Spans g' course' := by
  have hs := h.accounts.describes
  obtain ⟨-, hmodels⟩ := hmodels
  cases command with
  | create x =>
      obtain rfl := Option.some.inj hperform
      exact ⟨_, h.create hmodels⟩
  | add c =>
      obtain ⟨hover, hplain⟩ := hmodels
      have hknown : c.KnownTo g.registry := fun x hx => h.accounts.created x (hover x hx)
      exact h.accept (Session.keeps_add hknown hplain) hover hperform hfaultless
  | post c =>
      obtain ⟨hover, hplain⟩ := hmodels
      have hknown : c.KnownTo g.registry := fun x hx => h.accounts.created x (hover x hx)
      exact h.accept (Session.keeps_post hknown hplain) hover hperform hfaultless
  | optimise direction e =>
      obtain ⟨hover, hplain⟩ := hmodels
      have hknown : e.KnownTo g.registry := fun x hx => h.accounts.created x (hover x hx)
      obtain ⟨g', session, hle, hs', ⟨_, haimed, rfl⟩ | ⟨-, rfl⟩⟩ :=
        after_cases (Session.outcome_setObjective hs hknown hplain) hperform
      · exact ⟨g', h.aim hle hs' haimed hover⟩
      · cases hfaultless
  | solve options =>
      have hafter : course.after (Session.solve options) (fun _ course => course) = some course' :=
        hperform
      obtain ⟨_, session, hle, hs', ⟨_, ⟨rfl, hconcludes⟩, rfl⟩ | ⟨-, rfl⟩⟩ :=
        after_cases (Session.outcome_solve hs options) hafter
      · exact ⟨_, h.accounts.mono hle hs', fun τ hτ => h.retained τ ⟨hτ.domains, hτ.accepted, hτ.aims⟩,
          h.pursues.mono hs hle ⟨rfl, hconcludes.objective_eq⟩⟩
      · cases hfaultless
  | iterate options steps => cases hmodels
  | enumerate limit options => cases hmodels

/-- An objective that is set without an error is the one of the session. -/
theorem objective_of_optimise {scope : Scope} {direction : Direction} {e : Expr}
    (h : Accounts scope g course)
    (hadmissible : Command.Admissible scope course (.optimise direction e))
    (hperform : course.perform (.optimise direction e) = some course')
    (hfaultless : course'.faultless = true) :
    course'.session.objective = some (e, direction) ∧ course'.accepted = course.accepted ∧
      course'.created = course.created ∧ course'.aims = e :: course.aims := by
  have hknown : e.KnownTo g.registry := fun x hx => h.knows (hadmissible.1 x hx)
  obtain ⟨_, _, -, -, ⟨_, ⟨hobjective, -⟩, rfl⟩ | ⟨-, rfl⟩⟩ :=
    after_cases (Session.outcome_setObjective h.describes hknown hadmissible.2) hperform
  · exact ⟨hobjective, rfl, rfl, rfl⟩
  · cases hfaultless

theorem exists_spans (h : Reachable Command.Models course) (hfaultless : course.faultless = true) :
    ∃ g, Spans g course := by
  induction h with
  | start => exact ⟨_, spans_start⟩
  | step _ hmodels hperform ih =>
      obtain ⟨g, hg⟩ := ih hmodels.1
      exact hg.perform hmodels hperform hfaultless

end Course

variable {course : Course} {options : SolveOptions} {session : Session InProcess} {found : Bool}
  {τ : VarId → Int}

/-! ## Models of one variable -/

section Scaled

variable {x : IntVar} {k v : Int}

/-- A constant times a variable. -/
def scaled (x : IntVar) (k : Int) : Expr := .binary .mul (.ofInt x) (.constant k)

theorem reachable_single (hx : x.id = 0) : Reachable Command.Models (single x) :=
  reachable_create ⟨rfl, hx⟩

theorem plain_scaled {scope : Scope} (hk : word32.Fits k) : (scaled x k).Plain scope := by
  refine ⟨trivial, ?_⟩
  simpa [scaled, Expr.parts, Expr.Tame, Expr.ofInt, Expr.constant, Atom.Plain] using
    Scope.admits_of_fits hk

theorem models_optimise (direction : Direction) (hk : word32.Fits k) :
    Command.Models (single x) (.optimise direction (scaled x k)) := by
  refine ⟨rfl, fun y hy => ?_, plain_scaled hk⟩
  simpa [scaled, Expr.occurrences, Expr.ofInt, Expr.constant, Atom.vars, single,
    Course.create] using hy

theorem models_comparison (comparator : Comparator) (hk : word32.Fits k)
    (hv : word32.Fits v) :
    Command.Models (single x) (.post (.comparison comparator (scaled x k) (.constant v))) := by
  obtain ⟨-, hover, hplain⟩ := models_optimise (x := x) .minimise hk
  refine ⟨rfl, fun y hy => hover y ?_,
    Constraint.plain_comparison hplain (plain_constant (Scope.admits_of_fits hv))⟩
  simpa [Constraint.occurrences, Expr.occurrences, Expr.constant, Atom.vars] using hy

/-- What a constraint on the variable leads to. -/
theorem posted_single {comparator : Comparator} (hx : x.id = 0) (hk : word32.Fits k)
    (hv : word32.Fits v)
    (hperform : (single x).perform (.post (.comparison comparator (scaled x k) (.constant v))) =
      some course) (hfaultless : course.faultless = true) :
    Reachable Command.Models course ∧ course.created = [.int x] ∧
      course.accepted = [.comparison comparator (scaled x k) (.constant v)] := by
  obtain ⟨haccepted, hcreated, -⟩ := Course.accepted_of_post hperform hfaultless
  exact ⟨(reachable_single hx).step (models_comparison comparator hk hv) hperform, hcreated,
    haccepted⟩

/-- What an objective on the variable leads to. -/
theorem optimised_single {direction : Direction} (hx : x.id = 0) (hk : word32.Fits k)
    (hperform : (single x).perform (.optimise direction (scaled x k)) = some course)
    (hfaultless : course.faultless = true) :
    Reachable Command.Models course ∧ course.session.objective = some (scaled x k, direction) ∧
      course.created = [.int x] ∧ course.accepted = [] ∧ course.aims = [scaled x k] := by
  have hmodels := models_optimise (x := x) direction hk
  obtain ⟨g, hg⟩ := Course.exists_spans (reachable_single hx) rfl
  obtain ⟨hobjective, haccepted, hcreated, haims⟩ := Course.objective_of_optimise hg.accounts
    ⟨fun y hy => .inl (hmodels.2.1 y hy), hmodels.2.2⟩ hperform hfaultless
  exact ⟨(reachable_single hx).step hmodels hperform, hobjective, hcreated, haccepted, haims⟩

end Scaled

/-! ## Unsatisfiable models -/

/-- An unsatisfiable model is not realised by any values. -/
theorem not_realised_of_unsatisfiable (h : Reachable Command.Models course)
    (hfaultless : course.faultless = true)
    (hsolve : Session.solve options course.session = .ok found session)
    (hstatus : session.status = .unsatisfiable) : ¬ course.RealisedBy τ := by
  obtain ⟨g, hg⟩ := Course.exists_spans h hfaultless
  have hconcludes := Session.solving_solve hg.accounts.describes options
  rw [hsolve] at hconcludes
  have hfound : found = false := hconcludes.found_eq.trans (by rw [hstatus]; rfl)
  intro hτ
  obtain ⟨τ', -, hmeets⟩ := hg.retained τ hτ
  exact hconcludes.refuted hfound τ' hmeets

/-- Twice a digit is 3. -/
def doubledDigitIsOdd : Constraint := .eq (scaled (digit 0) 2) (.constant 3)

/-- No digit is 3 when it is doubled. -/
theorem not_realised_of_unsatisfiable_doubledDigit : ∃ course session,
    Reachable Command.Models course ∧ course.faultless = true ∧
      course.accepted = [doubledDigitIsOdd] ∧
      Session.solve {} course.session = .ok false session ∧ session.status = .unsatisfiable ∧
      ∀ τ, ¬ course.RealisedBy τ := by
  have hrun : (single (digit 0)).solvesAfter (.post doubledDigitIsOdd) (fun found session =>
      !found && session.status == .unsatisfiable) = true := by decide +kernel
  obtain ⟨course, found, session, hperform, hfaultless, hsolve, hcheck⟩ :=
    Course.exists_of_solvesAfter hrun
  obtain ⟨rfl, hstatus⟩ : found = false ∧ session.status = .unsatisfiable := by simpa using hcheck
  obtain ⟨hreachable, -, haccepted⟩ := posted_single rfl (by decide) (by decide) hperform hfaultless
  exact ⟨course, session, hreachable, hfaultless, haccepted, hsolve, hstatus,
    fun τ => not_realised_of_unsatisfiable hreachable hfaultless hsolve hstatus⟩

/-- Zero, or the greatest value of 32 bits. -/
def extreme : IntVar := ⟨0, "extreme", .values [0, 2147483647] (by decide) (by decide) (by decide)⟩

/-- The value times -3, which may be too low for 32 bits, is not zero. -/
def loweredExtremeNotZero : Constraint := .comparison .notEqual (scaled extreme (-3)) (.constant 0)

/-- A model can be found unsatisfiable although values make its constraints true: the auxiliary
variable that equals the lowered value cannot take it. -/
theorem unsatisfiable_of_loweredExtreme : ∃ course session,
    Reachable Command.Models course ∧ course.faultless = true ∧
      course.created = [.int extreme] ∧ course.accepted = [loweredExtremeNotZero] ∧
      Session.solve {} course.session = .ok false session ∧ session.status = .unsatisfiable ∧
      extreme.domain.contains 2147483647 = true ∧
      loweredExtremeNotZero.evaluate (total fun _ => 2147483647) = .ok true := by
  have hrun : (single extreme).solvesAfter (.post loweredExtremeNotZero) (fun found session =>
      !found && session.status == .unsatisfiable) = true := by decide +kernel
  obtain ⟨course, found, session, hperform, hfaultless, hsolve, hcheck⟩ :=
    Course.exists_of_solvesAfter hrun
  obtain ⟨rfl, hstatus⟩ : found = false ∧ session.status = .unsatisfiable := by simpa using hcheck
  obtain ⟨hreachable, hcreated, haccepted⟩ :=
    posted_single rfl (by decide) (by decide) hperform hfaultless
  exact ⟨course, session, hreachable, hfaultless, hcreated, haccepted, hsolve, hstatus,
    by decide, by decide⟩

/-! ## Optimal solutions -/

/-- No values that realise the model give the objective a better value than an optimal solution. -/
theorem not_better_of_optimal {e : Expr} {direction : Direction} {v w : Int}
    (h : Reachable Command.Models course) (hfaultless : course.faultless = true)
    (hobjective : course.session.objective = some (e, direction))
    (hsolve : Session.solve options course.session = .ok found session)
    (hstatus : session.status = .optimal) (hvalue : session.objectiveValue = some v)
    (hτ : course.RealisedBy τ) (hw : e.evaluate (total τ) = .ok w) : ¬ direction.Better w v := by
  obtain ⟨g, hg⟩ := Course.exists_spans h hfaultless
  have hconcludes := Session.solving_solve hg.accounts.describes options
  rw [hsolve] at hconcludes
  have hfound : found = true := hconcludes.found_eq.trans (by rw [hstatus]; rfl)
  obtain ⟨hover, view, hview, heval⟩ := hg.pursues e direction hobjective
  -- the solution of the engine gives the objective the reported value
  obtain ⟨τ₀, hτ₀, hvalues, hoptimal⟩ := hconcludes.solution hfound
  have hreported : e.evaluate (total τ₀) = .ok v := by
    obtain ⟨e', direction', hobj, hv⟩ := hconcludes.objectiveValue v hvalue
    obtain ⟨rfl, rfl⟩ := Prod.mk.inj (Option.some.inj
      (hobjective.symm.trans (hconcludes.objective_eq.symm.trans hobj)))
    exact Expr.traces_self (fun _ _ _ => total_of_reported hvalues) v hv
  obtain ⟨τ', hagree, hmeets⟩ := hg.retained τ hτ
  have hallows := ((Account.meets_iff_allows hg.accounts.describes.lowering.consistent).mp hmeets).2
  have hw' : e.evaluate (total τ') = .ok w :=
    Expr.traces_congr (fun x hx => hagree x (hover x hx)) w hw
  have hbest := hoptimal direction view hview τ' hmeets
  rwa [heval τ₀ hτ₀ v hreported, heval τ' hallows w hw'] at hbest

/-- Twice a digit is at most 18, and 6 for the digit 3. -/
theorem not_better_of_optimal_doubledDigit : ∃ course session,
    Reachable Command.Models course ∧ course.faultless = true ∧
      course.session.objective = some (scaled (digit 0) 2, .maximise) ∧
      Session.solve {} course.session = .ok true session ∧ session.status = .optimal ∧
      session.objectiveValue = some 18 ∧ course.RealisedBy (fun _ => 3) ∧
      (scaled (digit 0) 2).evaluate (total fun _ => 3) = .ok 6 ∧ ¬ Direction.maximise.Better 6 18 := by
  have hrun : (single (digit 0)).solvesAfter (.optimise .maximise (scaled (digit 0) 2))
      (fun found session => found && session.status == .optimal &&
        session.objectiveValue == some 18) = true := by
    decide +kernel
  obtain ⟨course, found, session, hperform, hfaultless, hsolve, hcheck⟩ :=
    Course.exists_of_solvesAfter hrun
  obtain ⟨⟨rfl, hstatus⟩, hvalue⟩ :
    (found = true ∧ session.status = .optimal) ∧ session.objectiveValue = some 18 := by
    simpa using hcheck
  obtain ⟨hreachable, hobjective, hcreated, haccepted, haims⟩ :=
    optimised_single rfl (by decide) hperform hfaultless
  have hrealised : course.RealisedBy fun _ => 3 := by
    refine ⟨?_, ?_, ?_⟩
    · rw [hcreated]
      decide
    · rw [haccepted]
      exact List.forall_mem_nil _
    · rw [haims]
      refine List.forall_mem_singleton.mpr fun o ho => ?_
      obtain rfl : o = scaled (digit 0) 2 := List.mem_singleton.mp ho
      exact ⟨6, by decide, by decide⟩
  exact ⟨course, session, hreachable, hfaultless, hobjective, hsolve, hstatus, hvalue, hrealised,
    by decide, not_better_of_optimal hreachable hfaultless hobjective hsolve hstatus hvalue hrealised
      (by decide)⟩

/-- A solution can be found optimal although values give the objective a better value. -/
theorem optimal_of_loweredExtreme : ∃ course session,
    Reachable Command.Models course ∧ course.faultless = true ∧
      course.created = [.int extreme] ∧ course.accepted = [] ∧
      course.session.objective = some (scaled extreme (-3), .minimise) ∧
      Session.solve {} course.session = .ok true session ∧ session.status = .optimal ∧
      session.objectiveValue = some 0 ∧ extreme.domain.contains 2147483647 = true ∧
      (scaled extreme (-3)).evaluate (total fun _ => 2147483647) = .ok (-6442450941) ∧
      Direction.minimise.Better (-6442450941) 0 := by
  have hrun : (single extreme).solvesAfter (.optimise .minimise (scaled extreme (-3)))
      (fun found session => found && session.status == .optimal &&
        session.objectiveValue == some 0) = true := by
    decide +kernel
  obtain ⟨course, found, session, hperform, hfaultless, hsolve, hcheck⟩ :=
    Course.exists_of_solvesAfter hrun
  obtain ⟨⟨rfl, hstatus⟩, hvalue⟩ :
    (found = true ∧ session.status = .optimal) ∧ session.objectiveValue = some 0 := by
    simpa using hcheck
  obtain ⟨hreachable, hobjective, hcreated, haccepted, -⟩ :=
    optimised_single rfl (by decide) hperform hfaultless
  exact ⟨course, session, hreachable, hfaultless, hcreated, haccepted, hobjective, hsolve, hstatus,
    hvalue, by decide, by decide, by simp [Direction.Better]⟩

end FiniteDomain
