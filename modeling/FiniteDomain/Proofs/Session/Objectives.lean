import FiniteDomain.Proofs.Session.Values
import FiniteDomain.Proofs.Session.Verdicts

/-!
# The objective of the session and the objective of the engine

A session records the objective that it was given, and its engine optimises a view. Along every
history the two belong together: there is a view exactly if there is a record, the directions are
the same, and in every solution of what was posted the view has the value of the recorded
expression. Only setting an objective changes either of them, and it changes both or none.
-/

namespace FiniteDomain

open InProcess (Account Doomed falsum)
open Session (Describes Optimises)

/-! ## Solutions of the engine -/

namespace Engine

variable {e : Engine} {a : Valuation}

/-- The values are a solution of what was posted, over the integers or as the propagators check
it. -/
structure Tolerates (e : Engine) (a : Valuation) : Prop where
  feasible : e.infeasible = false
  admits : e.store.Admits a
  passes : ∀ p ∈ e.propagators, p.Passes a

theorem IsModel.tolerates (h : IsModel e a) : e.Tolerates a :=
  ⟨h.1, h.2.1, fun p hp => .inr (h.2.2 p hp)⟩

/-- A variable is read through a view that does not change values of 32 bits. -/
theorem solutionValue_affine {i : VarIndex} {value : Int} (negated : Bool) (offset : Int)
    (h : e.solutionValue (.ofVar i) = some value) (hvalue : word32.Fits value) :
    e.solutionValue (.affine i negated offset) = some ((View.affine i negated offset).map value) := by
  obtain ⟨values, hsolution, hmap⟩ := Option.bind_eq_some_iff.mp h
  obtain ⟨w, hw, hclamp⟩ := Option.map_eq_some_iff.mp hmap
  have hcases := word64.clamp_cases w
  obtain rfl : w = value := by
    simp only [View.map, Bool.false_eq_true, if_false, zero_add] at hclamp
    simp only [Word.Fits, word32, word64] at hvalue hcases hclamp
    omega
  rw [solutionValue, hsolution, Option.bind_some, hw, Option.map_some]

end Engine

namespace InProcess

open Engine (Valuation View)

variable {g : Account} {s : Lowering.State InProcess} {a : Valuation} {τ : VarId → Int} {v : View}

/-- The values of the variables that the engine has met. -/
def assignment (b : InProcess) (a : Valuation) : Assignment :=
  fun id => (b.views.lookup id).map (View.eval a)

/-- The values of the engine's variables allow values of all variables. -/
theorem allows_of_tolerates (h : Describes g s) (ha : s.backend.engine.Tolerates a) :
    g.Allows (g.extension a) :=
  allows_extension h (Engine.Store.admits_of_le h.tracks.le ha.admits) fun p hp =>
    ha.passes p (h.tracks.complete ha.feasible p hp)

theorem total_of_assignment (h : Describes g s) {id : VarId} {w : Int}
    (hw : s.backend.assignment a id = some w) : total (g.extension a) id = some w := by
  obtain ⟨v, hlookup, rfl⟩ := Option.map_eq_some_iff.mp hw
  have hreads : Reads g id v := (h.views_iff id v).mp hlookup
  rw [total, ← eval_extension h (hreads.exact h.consistent).2, hreads.eval]

/-- There is no solution any more when a contradiction was found or posted. -/
theorem not_doomed_of_tolerates (ha : s.backend.engine.Tolerates a) : ¬ Doomed s := by
  rintro (hinfeasible | hfalsum)
  · cases ha.feasible.symm.trans hinfeasible
  · have hholds : falsum.Holds a := (ha.passes falsum hfalsum).holds Iff.rfl
    obtain ⟨v, hv, hne⟩ := hholds
    obtain rfl := List.mem_singleton.mp hv
    exact hne rfl

/-- What can be read of the variables can be read of every view. -/
theorem solutionValue_eq_of_reading (h : Describes g s) (hreading : Reading s.backend τ)
    (hτ : g.registry.Respects τ) (hv : v.Exact g.declared) :
    s.backend.engine.solutionValue v = some (v.eval (g.valuation τ)) := by
  cases v with
  | constant c => rfl
  | affine i negated offset =>
      obtain ⟨hdeclared, hfits⟩ := hv
      have hadmits := h.consistent.admits hτ i hdeclared
      have hi : i < g.owners.length := h.consistent.length_owners ▸ hdeclared
      have howner : g.owners[i]? = some g.owners[i] := List.getElem?_eq_getElem hi
      have hlookup : s.backend.views.lookup g.owners[i] = some (.ofVar i) :=
        (h.views_iff _ _).mpr ⟨i, howner, rfl⟩
      have hvalue : g.valuation τ i = τ g.owners[i] := by
        rw [Account.valuation, List.getD_eq_getElem _ _ hi]
      have hread : s.backend.engine.solutionValue (.ofVar i) = some (g.valuation τ i) := by
        have hbool := hreading (.bool ⟨g.owners[i], ""⟩)
        rw [value, Variable.id, hlookup] at hbool
        rw [hvalue]
        exact hbool
      rw [Engine.solutionValue_affine negated offset hread
        ((h.consistent.proper i hdeclared).fits hadmits), View.map_eq_raw (hfits _ hadmits),
        View.eval_affine]

end InProcess

/-! ## Histories -/

/-- The engine of the session. -/
def Session.engine (s : Session InProcess) : Engine := s.lowering.backend.engine

namespace Course

variable {g : Account} {course course' : Course} {command : Command} {session : Session InProcess}
  {e : Expr} {direction : Direction} {options : SolveOptions} {found : Bool}

/-- The account is right about the course, and the objective of the session is an expression that
was aimed at and that the engine optimises. -/
structure Concords (g : Account) (course : Course) : Prop where
  accounts : Accounts .negatable g course
  optimises : ∀ e direction, course.session.objective = some (e, direction) →
    e ∈ course.aims ∧ Optimises g e direction

/-- A command keeps both objectives, or sets both. -/
theorem Concords.perform (h : Concords g course)
    (hadmissible : command.Admissible .negatable course)
    (hperform : course.perform command = some course') : ∃ g', Concords g' course' := by
  obtain ⟨g', hle, haccounts, hsteers⟩ := accounts_perform h.accounts hadmissible hperform
  refine ⟨g', haccounts, fun e direction hobjective => ?_⟩
  rcases hsteers with ⟨hsame, haims⟩ | ⟨e', direction', ⟨hset, haims⟩, hnoted⟩
  · obtain ⟨hmem, hoptimises⟩ := h.optimises e direction (hsame.session.symm.trans hobjective)
    exact ⟨haims ▸ hmem, hoptimises.mono h.accounts.describes hle hsame.account⟩
  · obtain ⟨rfl, rfl⟩ := Prod.mk.inj (Option.some.inj (hset.symm.trans hobjective))
    exact ⟨hnoted ▸ List.mem_cons_self, haims.optimises nofun⟩

theorem exists_concords (h : Reachable (Command.Admissible .negatable) course) :
    ∃ g, Concords g course := by
  induction h with
  | start => exact ⟨_, accounts_start, nofun⟩
  | step _ hadmissible hperform ih =>
      obtain ⟨g, hg⟩ := ih
      exact hg.perform hadmissible hperform

/-- There is a view exactly if there is a record, with the same direction. -/
theorem Concords.directions_eq (h : Concords g course) :
    course.session.objective.map Prod.snd = course.session.engine.objective.map Prod.fst := by
  have hengine : course.session.engine.objective = g.objective :=
    h.accounts.describes.lowering.objective_eq
  rw [hengine]
  cases hobjective : course.session.objective with
  | none => rw [h.accounts.describes.objective hobjective, Option.map_none, Option.map_none]
  | some aim =>
      obtain ⟨v, hv, -⟩ := (h.optimises aim.1 aim.2 hobjective).2
      rw [hv, Option.map_some, Option.map_some]

/-- In a solution of the engine the view has the value of the expression. -/
theorem Concords.eval_eq {v : Engine.View} {a : Engine.Valuation} {w : Int} (h : Concords g course)
    (hobjective : course.session.objective = some (e, direction))
    (hv : course.session.engine.objective = some (direction, v))
    (ha : course.session.engine.Tolerates a)
    (hw : e.evaluate (course.session.lowering.backend.assignment a) = .ok w) : v.eval a = w := by
  have hlowering := h.accounts.describes.lowering
  obtain ⟨-, v', hv', heval⟩ := h.optimises e direction hobjective
  obtain rfl : v = v' := (Prod.mk.inj (Option.some.inj
    (hv.symm.trans (hlowering.objective_eq.trans hv')))).2
  have htotal : e.evaluate (total (g.extension a)) = .ok w :=
    Expr.traces_self (fun _ _ _ => InProcess.total_of_assignment hlowering) w hw
  rw [← InProcess.eval_extension hlowering (hlowering.tracks.objective _ _ hv)]
  exact heval _ (InProcess.allows_of_tolerates hlowering ha) w htotal

/-- An objective that is refused leaves both as they were. -/
theorem Concords.objectives_eq_of_error {error : LoweringError} (h : Concords g course)
    (hadmissible : Command.Admissible .negatable course (.optimise direction e))
    (hrun : Session.setObjective e direction course.session = .error (.error error) session) :
    session.objective = course.session.objective ∧
      session.engine.objective = course.session.engine.objective := by
  have hs := h.accounts.describes
  have hknown : e.KnownTo g.registry := fun x hx => h.accounts.knows (hadmissible.1 x hx)
  have houtcome : Session.Outcome g course.session _
      (Session.setObjective e direction course.session) :=
    Session.outcome_setObjective hs hknown hadmissible.2
  rw [hrun] at houtcome
  obtain ⟨g', -, hs', hsame⟩ := houtcome
  exact ⟨hsame.session, hs'.lowering.objective_eq.trans
    (hsame.account.trans hs.lowering.objective_eq.symm)⟩

/-- The value of the objective that is kept after a solve is the engine's value of the view. -/
theorem Concords.solutionValue_eq {w : Int} (h : Concords g course)
    (hsolve : Session.solve options course.session = .ok found session)
    (hw : session.objectiveValue = some w) :
    ∃ direction v, session.engine.objective = some (direction, v) ∧
      session.engine.solutionValue v = some w := by
  have hconcludes := Session.solving_solve h.accounts.describes options
  rw [hsolve] at hconcludes
  obtain ⟨e, direction, hobjective, hvalue⟩ := hconcludes.objectiveValue w hw
  obtain ⟨-, v, hv, heval⟩ := h.optimises e direction (hconcludes.objective_eq.symm.trans hobjective)
  have hlowering := hconcludes.describes.lowering
  have hobj : session.engine.objective = some (direction, v) := hlowering.objective_eq.trans hv
  have hfound : found = true := by
    by_contra hnot
    cases (hconcludes.unvalued (Bool.eq_false_of_not_eq_true hnot)).symm.trans hw
  obtain ⟨τ, hτ, hvalues, hreading⟩ := hconcludes.reading hfound
  have htotal : e.evaluate (total τ) = .ok w :=
    Expr.traces_self (fun _ _ _ => total_of_reported hvalues) w hvalue
  refine ⟨direction, v, hobj, ?_⟩
  rw [← heval τ hτ w htotal]
  exact InProcess.solutionValue_eq_of_reading hlowering hreading hτ.1
    (hlowering.tracks.objective _ _ hobj)

/-- In a solution of the engine the variables of the objective have values. -/
theorem exists_assignment_of_aimed {x : Variable} {a : Engine.Valuation}
    (h : Reachable (Command.Admissible .negatable) course) (he : e ∈ course.aims)
    (hx : x ∈ e.occurrences) (ha : course.session.engine.Tolerates a) :
    ∃ w, course.session.lowering.backend.assignment a x.id = some w := by
  obtain ⟨hcovered, -⟩ := covered_of_reachable (fun _ _ => id) h
  obtain ⟨v, hv⟩ := (hcovered.aims e he x hx).resolve_right (InProcess.not_doomed_of_tolerates ha)
  exact ⟨v.eval a, Option.map_eq_some_iff.mpr ⟨v, hv, rfl⟩⟩

end Course

variable {course : Course}

/-- The objective of the session and that of the engine belong together in every history: there is
one exactly if there is the other, in the same direction; in every solution of the engine the
variables of the expression have values, and if these give it a value then the view has this value;
a refused objective changes neither; and the value that is kept after a solve is the one that the
engine has for the view. Constants are greater than the least one of 64 bits. -/
theorem objectives_never_diverge (h : Reachable (Command.Admissible .negatable) course) :
    course.session.objective.map Prod.snd = course.session.engine.objective.map Prod.fst ∧
    (∀ e direction v a, course.session.objective = some (e, direction) →
      course.session.engine.objective = some (direction, v) → course.session.engine.Tolerates a →
        (∀ x ∈ e.occurrences, ∃ w, course.session.lowering.backend.assignment a x.id = some w) ∧
        ∀ w, e.evaluate (course.session.lowering.backend.assignment a) = .ok w → v.eval a = w) ∧
    (∀ e direction error session, Command.Admissible .negatable course (.optimise direction e) →
      Session.setObjective e direction course.session = .error (.error error) session →
        session.objective = course.session.objective ∧
          session.engine.objective = course.session.engine.objective) ∧
    ∀ options found session w, Session.solve options course.session = .ok found session →
      session.objectiveValue = some w →
        ∃ direction v, session.engine.objective = some (direction, v) ∧
          session.engine.solutionValue v = some w := by
  obtain ⟨g, hg⟩ := Course.exists_concords h
  refine ⟨hg.directions_eq, fun e direction v a hobjective hv ha => ⟨fun x hx => ?_, fun w => ?_⟩,
    fun e direction error session => hg.objectives_eq_of_error,
    fun options found session w => hg.solutionValue_eq⟩
  · exact Course.exists_assignment_of_aimed h (hg.optimises e direction hobjective).1 hx ha
  · exact hg.eval_eq hobjective hv ha

section DoubledDigit

theorem admissible_doubledDigit :
    Command.Admissible .negatable (single (digit 0)) (.optimise .maximise (scaled (digit 0) 2)) :=
  ⟨fun y hy => .inl ((models_optimise .maximise (by decide)).2.1 y hy), plain_scaled (by decide)⟩

/-- Twice a digit is maximised: the view is 6 where the digit is 3, and 18 in the solution that is
found. -/
theorem objectives_never_diverge_doubledDigit : ∃ course session v a,
    Reachable (Command.Admissible .negatable) course ∧
      course.session.objective = some (scaled (digit 0) 2, .maximise) ∧
      course.session.engine.objective = some (.maximise, v) ∧
      course.session.engine.Tolerates a ∧
      (scaled (digit 0) 2).evaluate (course.session.lowering.backend.assignment a) = .ok 6 ∧
      v.eval a = 6 ∧
      Session.solve {} course.session = .ok true session ∧ session.status = .optimal ∧
      session.objectiveValue = some 18 ∧
      ∃ direction w, session.engine.objective = some (direction, w) ∧
        session.engine.solutionValue w = some 18 := by
  let a : Engine.Valuation := fun i => if i = 0 then 3 else 6
  have hrun : (single (digit 0)).solvesAfter (.optimise .maximise (scaled (digit 0) 2))
      (fun found session => found && session.status == .optimal &&
        session.objectiveValue == some 18) = true := by
    decide +kernel
  have hsolution : ((single (digit 0)).perform (.optimise .maximise (scaled (digit 0) 2))).any
      (fun course => course.session.engine.objective == some (.maximise, .ofVar 1) &&
        !course.session.engine.infeasible && decide (course.session.engine.store.Admits a) &&
        decide (∀ p ∈ course.session.engine.propagators, p.Holds a) &&
        decide ((scaled (digit 0) 2).evaluate (course.session.lowering.backend.assignment a) =
          .ok 6)) = true := by decide +kernel
  obtain ⟨course, found, session, hperform, hfaultless, hsolve, hfound⟩ :=
    Course.exists_of_solvesAfter hrun
  rw [hperform, Option.any_some] at hsolution
  simp only [Bool.and_eq_true, Bool.not_eq_true', decide_eq_true_eq, beq_iff_eq] at hsolution hfound
  obtain ⟨⟨⟨⟨hengine, hfeasible⟩, hadmits⟩, hholds⟩, hevaluate⟩ := hsolution
  obtain ⟨⟨rfl, hstatus⟩, hvalue⟩ := hfound
  have htolerates : course.session.engine.Tolerates a :=
    Engine.IsModel.tolerates ⟨hfeasible, hadmits, hholds⟩
  have hfirst : Reachable (Command.Admissible .negatable) (single (digit 0)) := reachable_create rfl
  obtain ⟨g, hg⟩ := Course.exists_concords hfirst
  obtain ⟨hobjective, -⟩ :=
    Course.objective_of_optimise hg.accounts admissible_doubledDigit hperform hfaultless
  have hreachable := hfirst.step admissible_doubledDigit hperform
  obtain ⟨-, hsolutions, -, hkept⟩ := objectives_never_diverge hreachable
  exact ⟨course, session, .ofVar 1, a, hreachable, hobjective, hengine, htolerates, hevaluate,
    (hsolutions _ _ _ a hobjective hengine htolerates).2 6 hevaluate, hsolve, hstatus, hvalue,
    hkept {} true session 18 hsolve hvalue⟩

end DoubledDigit

end FiniteDomain
