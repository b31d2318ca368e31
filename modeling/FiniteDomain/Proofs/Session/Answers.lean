import FiniteDomain.Proofs.Constraint.Preservation
import FiniteDomain.Proofs.Session.Histories

/-!
# Solutions that a session reports

Whatever was done before, values that a session reports make no constraint false that it has
accepted.
-/

namespace FiniteDomain

open InProcess (Account)

variable {g : Account} {course : Course} {options : SolveOptions} {session : Session InProcess}
  {c : Constraint} {b : Bool}

/-- What is reported for a variable is its value under the values that the account allows. -/
theorem total_of_reported {xs : List Variable} {τ : VarId → Int} {id : VarId} {v : Int}
    (hvalues : session.values = g.reading xs τ) (hv : session.value id = some v) :
    total τ id = some v := by
  rw [Session.value, hvalues] at hv
  obtain ⟨-, -, rfl⟩ := InProcess.lookup_reading_iff.mp hv
  rfl

/-- In a session with any history, also with errors and enumerations, a solution makes every
accepted constraint true that it gives a truth value. Constants of structured expressions are
greater than the least one of 64 bits. -/
theorem solution_satisfies_accepted (h : Reachable (Command.Admissible .narrow) course)
    (hsolve : Session.solve options course.session = .ok true session) (hc : c ∈ course.accepted)
    (hb : c.evaluate session.value = .ok b) : b = true := by
  obtain ⟨g, hg⟩ := Course.exists_accounts (fun _ _ h => h) h
  have hsolving := Session.solving_solve hg.describes options
  rw [hsolve] at hsolving
  obtain ⟨τ, hτ, hvalues, -⟩ := hsolving.solution rfl
  have hfails := hg.assured nofun c hc τ hτ
  have htotal : c.evaluate (total τ) = .ok b :=
    Constraint.evaluate_of_agree (fun _ _ _ => total_of_reported hvalues) hb
  cases b with
  | true => rfl
  | false => exact absurd htotal hfails

/-! ## Histories that are computed -/

/-- A single variable. -/
def single (x : IntVar) : Course := ({} : Course).create (.int x)

theorem reachable_create {permitted : Course → Command → Prop} {x : IntVar}
    (h : permitted {} (.create (.int x))) : Reachable permitted (single x) :=
  .step .start h rfl

/-- A command succeeds, and after it a solve does with a result that passes a check. -/
def Course.solvesAfter (course : Course) (command : Command)
    (check : Bool → Session InProcess → Bool) : Bool :=
  (course.perform command).any fun course => course.faultless &&
    match Session.solve {} course.session with
    | .ok found session => check found session
    | .error _ _ => false

theorem Course.exists_of_solvesAfter {command : Command} {check : Bool → Session InProcess → Bool}
    (h : course.solvesAfter command check = true) : ∃ course' found session,
      course.perform command = some course' ∧ course'.faultless = true ∧
        Session.solve {} course'.session = .ok found session ∧ check found session = true := by
  obtain ⟨course', hperform, h⟩ := Option.any_eq_true _ _ |>.mp h
  obtain ⟨hfaultless, h⟩ := Bool.and_eq_true_iff.mp h
  split at h
  · next found session hsolve => exact ⟨course', found, session, hperform, hfaultless, hsolve, h⟩
  · cases h

section AscendingDigits

/-- Two digits in ascending order. -/
def ascendingDigits : Constraint := .comparison .less (.ofInt (digit 0)) (.ofInt (digit 1))

/-- Two digits. -/
def twoDigits : Course := (single (digit 0)).create (.int (digit 1))

theorem reachable_twoDigits : Reachable (Command.Admissible .narrow) twoDigits := by
  have hfirst : Reachable (Command.Admissible .narrow) (single (digit 0)) := reachable_create rfl
  have hsecond : Command.Admissible .narrow (single (digit 0)) (.create (.int (digit 1))) := rfl
  exact hfirst.step hsecond rfl

theorem admissible_ascendingDigits :
    Command.Admissible .narrow twoDigits (.post ascendingDigits) := by
  refine ⟨fun x hx => .inl ?_, ?_⟩
  · simpa [ascendingDigits, Constraint.occurrences, Expr.occurrences, Expr.ofInt, Atom.vars,
      twoDigits, single, Course.create, or_comm] using hx
  · exact Constraint.plain_comparison (Expr.plain_ofInt _) (Expr.plain_ofInt _)

/-- The digits 0 and 1 are a solution. -/
theorem solution_satisfies_accepted_ascendingDigits : ∃ course session,
    Reachable (Command.Admissible .narrow) course ∧ ascendingDigits ∈ course.accepted ∧
      Session.solve {} course.session = .ok true session ∧
      ascendingDigits.evaluate session.value = .ok true := by
  have hrun : twoDigits.solvesAfter (.post ascendingDigits) (fun found session =>
      found && (ascendingDigits.evaluate session.value).isOk) = true := by decide +kernel
  obtain ⟨course, found, session, hperform, hfaultless, hsolve, hcheck⟩ :=
    Course.exists_of_solvesAfter hrun
  obtain ⟨rfl, hvalue⟩ := Bool.and_eq_true_iff.mp hcheck
  have hc : ascendingDigits ∈ course.accepted := by
    rw [(Course.accepted_of_post hperform hfaultless).1]
    exact List.mem_cons_self
  have hreachable := reachable_twoDigits.step admissible_ascendingDigits hperform
  cases hb : ascendingDigits.evaluate session.value with
  | error e =>
      rw [hb] at hvalue
      cases hvalue
  | ok b =>
      obtain rfl := solution_satisfies_accepted hreachable hsolve hc hb
      exact ⟨course, session, hreachable, hc, hsolve, hb⟩

end AscendingDigits

end FiniteDomain
