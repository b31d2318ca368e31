import FiniteDomain.Proofs.Session.Stepping

/-!
# Histories of a session

A user creates variables, adds constraints, sets objectives, solves and enumerates, in any order
and after errors too. At every point there is an account that is right about the session, and
none of the values that it allows makes a constraint false that was accepted.
-/

namespace FiniteDomain

open InProcess (Account)

/-- What the user of a session can do. -/
inductive Command where
  /-- Creates a variable; this does not concern the session. -/
  | create (x : Variable)
  | add (c : Constraint)
  | post (c : Constraint)
  | optimise (direction : Direction) (e : Expr)
  | solve (options : SolveOptions)
  /-- Begins an enumeration and makes some steps of it. -/
  | iterate (options : SolveOptions) (steps : Nat)
  | enumerate (limit : Option Nat) (options : SolveOptions)

/-- Makes steps of an enumeration, whether they succeed or not. There is no result if an
intermediate result overflows. -/
def Iteration.advance : Nat → Iteration InProcess → Option (Iteration InProcess)
  | 0, it => some it
  | steps + 1, it =>
    match it.next with
    | .ok _ it => it.advance steps
    | .error (.error _) it => it.advance steps
    | .error .overflow _ => none

/-- A session, and what its user has done. -/
structure Course where
  session : Session InProcess := { lowering := { backend := {} } }
  /-- The variables that the user has created. -/
  created : List Variable := []
  /-- The constraints that were added or posted without an error. -/
  accepted : List Constraint := []
  /-- The expressions that were set as objectives without an error. -/
  aims : List Expr := []
  /-- No command ended with an error, steps of an enumeration aside. -/
  faultless : Bool := true

namespace Course

/-- The course after an action of the session. -/
def after {α : Type} (course : Course) (action : Session.Action InProcess α)
    (note : α → Course → Course) : Option Course :=
  match action course.session with
  | .ok a session => some (note a { course with session })
  | .error (.error _) session => some { course with session, faultless := false }
  | .error .overflow _ => none

/-- The course after a constraint was accepted. -/
def accept (c : Constraint) (_ : Unit) (course : Course) : Course :=
  { course with accepted := c :: course.accepted }

/-- The course after an objective was set. -/
def aim (e : Expr) (_ : Unit) (course : Course) : Course :=
  { course with aims := e :: course.aims }

/-- The course after an enumeration. -/
def noteEnd (p : List (List (VarId × Int)) × Option LoweringError) (course : Course) : Course :=
  { course with faultless := course.faultless && p.2.isNone }

/-- The course after a variable was created. -/
def create (x : Variable) (course : Course) : Course :=
  { course with
    session := { course.session with
      lowering := { course.session.lowering with nextId := x.id + 1 } }
    created := x :: course.created }

/-- The course after a command, unless an intermediate result overflows. -/
def perform (course : Course) : Command → Option Course
  | .create x => some (course.create x)
  | .add c => course.after (Session.add c) (accept c)
  | .post c => course.after (Session.post c) (accept c)
  | .optimise direction e => course.after (Session.setObjective e direction) (aim e)
  | .solve options => course.after (Session.solve options) fun _ course => course
  | .iterate options steps =>
    match course.session.iteration? options with
    | .ok it => (it.advance steps).map fun it => { course with session := it.session }
    | .error _ => some { course with faultless := false }
  | .enumerate limit options => course.after (Session.enumerate limit options) noteEnd

/-- What an action leads to if it ends without an error. -/
theorem eq_note_of_after {α : Type} {course course' : Course} {action : Session.Action InProcess α}
    {note : α → Course → Course} (h : course.after action note = some course')
    (hfaultless : course'.faultless = true) :
    ∃ a session, course' = note a { course with session } := by
  rw [after] at h
  split at h
  · exact ⟨_, _, (Option.some.inj h).symm⟩
  · obtain rfl := Option.some.inj h
    cases hfaultless
  · cases h

/-- A constraint that is posted without an error is accepted. -/
theorem accepted_of_post {course course' : Course} {c : Constraint}
    (h : course.perform (.post c) = some course') (hfaultless : course'.faultless = true) :
    course'.accepted = c :: course.accepted ∧ course'.created = course.created ∧
      course'.aims = course.aims := by
  obtain ⟨_, _, rfl⟩ := eq_note_of_after h hfaultless
  exact ⟨rfl, rfl, rfl⟩

/-- The user has access to the variable: it was created, or the session tracks it. -/
def Offers (course : Course) (x : Variable) : Prop :=
  x ∈ course.created ∨ x ∈ course.session.tracked

end Course

/-- The command can be given: a new variable has the next number, and constraints and objectives
speak about variables the user has access to. They have no large constants, and lists that are
counted in 32 bits have fewer entries than that. -/
def Command.Admissible (scope : Scope) (course : Course) : Command → Prop
  | create x => x.id = course.session.lowering.nextId
  | add c | post c => (∀ x ∈ c.occurrences, course.Offers x) ∧ c.Plain scope
  | optimise _ e => (∀ x ∈ e.occurrences, course.Offers x) ∧ e.Plain scope.bare
  | _ => True

/-- The courses that certain commands lead to. -/
inductive Reachable (permitted : Course → Command → Prop) : Course → Prop
  | start : Reachable permitted {}
  | step {course course' : Course} {command : Command} : Reachable permitted course →
      permitted course command → course.perform command = some course' →
      Reachable permitted course'

/-! ## Enumerations -/

namespace Iteration

variable {g : Account} {it it' : Iteration InProcess}

theorem describes_advance {steps : Nat} (h : Describes g it) (hadvance : it.advance steps = some it') :
    ∃ g', g.Grows g' ∧ Describes g' it' ∧ it'.session.objective = it.session.objective := by
  induction steps generalizing g it with
  | zero =>
      obtain rfl := Option.some.inj hadvance
      exact ⟨g, .refl g, h, rfl⟩
  | succ steps ih =>
      have hstep := stepping_next h
      rw [advance] at hadvance
      generalize it.next = r at hstep hadvance
      rcases r with ⟨reply, it₁⟩ | ⟨stop, it₁⟩
      · obtain ⟨g₁, g₂, hexcluded, hle, h₁, -, hobjective, -⟩ := hstep
        obtain ⟨g', hle', h', hobjective'⟩ := ih h₁ hadvance
        exact ⟨g', (hexcluded.grows.trans hle).trans hle', h', hobjective'.trans hobjective⟩
      · cases stop with
        | overflow => cases hadvance
        | error e =>
            obtain ⟨-, g₁, hle, h₁, hobjective⟩ := hstep
            obtain ⟨g', hle', h', hobjective'⟩ := ih h₁ hadvance
            exact ⟨g', hle.trans hle', h', hobjective'.trans hobjective⟩

/-- What finding several solutions ends with. -/
def Collecting (g : Account) (it : Iteration InProcess) :
    EStateM.Result Stop (Iteration InProcess) (List (List (VarId × Int)) × Option LoweringError) → Prop
  | .ok _ it' => ∃ g', g.Grows g' ∧ Describes g' it' ∧
      it'.session.objective = it.session.objective
  | .error e _ => e = .overflow

theorem collect_succ (count : Nat) (found : List (List (VarId × Int))) (it : Iteration InProcess) :
    collect (count + 1) found it = match it.next with
      | .ok (.solution values) it => collect count (found ++ [values]) it
      | .ok _ it => .ok (found, none) it
      | .error (.error e) it => .ok (found, some e) it
      | .error .overflow it => .error .overflow it := by
  simp only [collect]
  rcases it.next with ⟨reply, _⟩ | ⟨stop, _⟩
  · cases reply <;> rfl
  · cases stop <;> rfl

theorem collecting_collect (count : Nat) (found : List (List (VarId × Int))) (h : Describes g it) :
    Collecting g it (collect count found it) := by
  induction count generalizing g it found with
  | zero => exact ⟨g, .refl g, h, rfl⟩
  | succ count ih =>
      have hstep := stepping_next h
      rw [collect_succ]
      generalize it.next = r at hstep
      rcases r with ⟨reply, it₁⟩ | ⟨stop, it₁⟩
      · obtain ⟨g₁, g₂, hexcluded, hle, h₁, -, hobjective, -⟩ := hstep
        have hle := hexcluded.grows.trans hle
        cases reply with
        | solution values =>
            have hrest := ih (found ++ [values]) h₁
            simp only
            generalize collect count (found ++ [values]) it₁ = r at hrest
            rcases r with ⟨p, it'⟩ | ⟨stop, it'⟩
            · obtain ⟨g', hle', h', hobjective'⟩ := hrest
              exact ⟨g', hle.trans hle', h', hobjective'.trans hobjective⟩
            · exact hrest
        | _ => exact ⟨g₂, hle, h₁, hobjective⟩
      · cases stop with
        | overflow => exact rfl
        | error e =>
            obtain ⟨-, g₁, hle, h₁, hobjective⟩ := hstep
            exact ⟨g₁, hle, h₁, hobjective⟩

/-- Nothing is excluded when an enumeration begins. -/
theorem describes_start {s : Session InProcess} {options : SolveOptions}
    (hs : Session.Describes g s) : Describes g { session := s, options } :=
  ⟨hs, by simp, by simp, by simp⟩

end Iteration

namespace Session

variable {g g' : Account} {s s' : Session InProcess} {it : Iteration InProcess}
  {options : SolveOptions}

theorem iteration?_eq_ok_iff : s.iteration? options = .ok it ↔
    s.objective = none ∧ it = { session := s, options } := by
  rw [iteration?]
  split
  · next h => simp [h]
  · next h => simp [h, eq_comm]

/-- Without an objective there is none after an enumeration. -/
theorem sameAim_of_none (hs : Describes g s) (hs' : Describes g' s') (hnone : s.objective = none)
    (hobjective : s'.objective = s.objective) : SameAim g g' s s' :=
  ⟨(hs'.objective (hobjective.trans hnone)).trans (hs.objective hnone).symm, hobjective⟩

theorem outcome_enumerate (hs : Describes g s) (limit : Option Nat) (options : SolveOptions) :
    Outcome g s (fun _ g' s' => SameAim g g' s s') (enumerate limit options s) := by
  rw [enumerate]
  cases hit : s.iteration? options with
  | error e => exact ⟨g, .refl g, hs, .refl g s⟩
  | ok it =>
      obtain ⟨hnone, rfl⟩ := iteration?_eq_ok_iff.mp hit
      have hstart : Iteration.Describes g { session := s, options } := Iteration.describes_start hs
      have hcollect := Iteration.collecting_collect
        (limit.getD (Backend.solveBound s.lowering.backend s.tracked)) [] hstart
      simp only
      generalize Iteration.collect (limit.getD (Backend.solveBound s.lowering.backend s.tracked)) []
        { session := s, options } = r at hcollect
      rcases r with ⟨⟨found, _ | e⟩, it'⟩ | ⟨stop, it'⟩
      · obtain ⟨g', hle, h', hobjective⟩ := hcollect
        have hsame := sameAim_of_none hs h'.session hnone hobjective
        exact ⟨g', hle, h'.session.journal _ rfl rfl rfl rfl, hsame.account, hsame.session⟩
      · obtain ⟨g', hle, h', hobjective⟩ := hcollect
        exact ⟨g', hle, h'.session, sameAim_of_none hs h'.session hnone hobjective⟩
      · obtain rfl : stop = .overflow := hcollect
        trivial

end Session

namespace Course

open Session (Describes SameAim Aimed)

variable {g g' : Account} {course course' : Course} {command : Command} {scope : Scope}

/-- The account is right about the course. In scope, no values that it allows make an accepted
constraint false. -/
structure Accounts (scope : Scope) (g : Account) (course : Course) : Prop where
  describes : Describes g course.session
  created : ∀ x ∈ course.created, g.registry.Knows x
  assured : scope ≠ .words → ∀ c ∈ course.accepted, ∀ τ, g.Allows τ → ¬ c.Fails τ

theorem Accounts.mono (h : Accounts scope g course) (hle : g.Grows g') {session}
    (hs : Describes g' session) : Accounts scope g' { course with session } where
  describes := hs
  created := fun x hx => (h.created x hx).mono hle.registry
  assured := fun hscope c hc τ hτ =>
    h.assured hscope c hc τ (hτ.of_grows h.describes.lowering.consistent hle)

theorem Accounts.knows (h : Accounts scope g course) {x : Variable} (hx : course.Offers x) :
    g.registry.Knows x := hx.elim (h.created x) (h.describes.tracked x)

/-- What an action of the session leads to, with an error or without one. -/
theorem after_cases {α : Type} {action : Session.Action InProcess α} {note}
    {R : α → Account → Session InProcess → Prop}
    (houtcome : Session.Outcome g course.session R (action course.session))
    (hafter : course.after action note = some course') :
    ∃ g' session, g.Grows g' ∧ Describes g' session ∧
      ((∃ a, R a g' session ∧ course' = note a { course with session }) ∨
        SameAim g g' course.session session ∧
          course' = { course with session, faultless := false }) := by
  rw [after] at hafter
  generalize action course.session = r at houtcome hafter
  rcases r with ⟨a, session⟩ | ⟨stop, session⟩
  · obtain ⟨g', hle, hs, hR⟩ := houtcome
    exact ⟨g', session, hle, hs, .inl ⟨a, hR, (Option.some.inj hafter).symm⟩⟩
  · cases stop with
    | overflow => cases hafter
    | error e =>
        obtain ⟨g', hle, hs, hsame⟩ := houtcome
        exact ⟨g', session, hle, hs, .inr ⟨hsame, (Option.some.inj hafter).symm⟩⟩

/-- The objective stays the same, or another one is set. -/
def Steers (scope : Scope) (g g' : Account) (course course' : Course) : Prop :=
  SameAim g g' course.session course'.session ∧ course'.aims = course.aims ∨
    ∃ e direction, Aimed scope g e direction () g' course'.session ∧
      course'.aims = e :: course.aims

/-- An action of the session leads to a larger account. -/
theorem accounts_after {α : Type} {action : Session.Action InProcess α} {note}
    {R : α → Account → Session InProcess → Prop} (h : Accounts scope g course)
    (houtcome : Session.Outcome g course.session R (action course.session))
    (hnote : ∀ a g' session, R a g' session → Accounts scope g' { course with session } →
      Accounts scope g' (note a { course with session }) ∧
        Steers scope.bare g g' course (note a { course with session }))
    (hafter : course.after action note = some course') :
    ∃ g', g.Grows g' ∧ Accounts scope g' course' ∧ Steers scope.bare g g' course course' := by
  obtain ⟨g', session, hle, hs, ⟨a, hR, rfl⟩ | ⟨hsame, rfl⟩⟩ := after_cases houtcome hafter
  · exact ⟨g', hle, hnote a g' session hR (h.mono hle hs)⟩
  · have hmono := h.mono hle hs
    exact ⟨g', hle, ⟨hmono.describes, hmono.created, hmono.assured⟩, .inl ⟨hsame, rfl⟩⟩

theorem accounts_accept {c : Constraint} {g₀ : Account} (h : Accounts scope g course)
    (hposts : InProcess.Posts scope g₀ g c) : Accounts scope g (course.accept c ()) where
  describes := h.describes
  created := h.created
  assured := fun hscope => List.forall_mem_cons.mpr ⟨hposts.sound hscope, h.assured hscope⟩

/-- The account after a variable was created. -/
theorem accounts_create {x : Variable} (h : Accounts scope g course)
    (hx : x.id = course.session.lowering.nextId) :
    Accounts scope (g.know (g.registry.extend x)) (course.create x) := by
  have hid : x.id = g.registry.next := hx.trans h.describes.lowering.next_eq
  have hle := g.registry.le_extend x
  have hlowering : InProcess.Describes (g.know (g.registry.extend x))
      { course.session.lowering with nextId := x.id + 1 } :=
    ⟨Account.consistent_know h.describes.lowering.consistent hle, h.describes.lowering.tracks,
      h.describes.lowering.objective_eq, congrArg (· + 1) hid, h.describes.lowering.views_iff⟩
  have hgrows := Account.grows_know hle
  have hmono := h.mono hgrows (h.describes.lowered hgrows rfl hlowering)
  exact ⟨hmono.describes, List.forall_mem_cons.mpr ⟨Registry.knows_extend hid, hmono.created⟩,
    hmono.assured⟩

/-- Every command leads to a larger account, and if it is not given an objective then it keeps the
one that there is. -/
theorem accounts_perform (h : Accounts scope g course) (hadmissible : command.Admissible scope course)
    (hperform : course.perform command = some course') :
    ∃ g', g.Grows g' ∧ Accounts scope g' course' ∧ Steers scope.bare g g' course course' := by
  cases command with
  | create x =>
      obtain rfl := Option.some.inj hperform
      exact ⟨_, Account.grows_know (g.registry.le_extend x), accounts_create h hadmissible,
        .inl ⟨⟨rfl, rfl⟩, rfl⟩⟩
  | add c =>
      have hknown : c.KnownTo g.registry := fun x hx => h.knows (hadmissible.1 x hx)
      exact accounts_after h (Session.keeps_add hknown hadmissible.2 _ h.describes)
        (fun _ _ _ hposts h => ⟨accounts_accept h hposts.2, .inl ⟨hposts.1, rfl⟩⟩) hperform
  | post c =>
      have hknown : c.KnownTo g.registry := fun x hx => h.knows (hadmissible.1 x hx)
      exact accounts_after h (Session.keeps_post hknown hadmissible.2 _ h.describes)
        (fun _ _ _ hposts h => ⟨accounts_accept h hposts.2, .inl ⟨hposts.1, rfl⟩⟩) hperform
  | optimise direction e =>
      have hknown : e.KnownTo g.registry := fun x hx => h.knows (hadmissible.1 x hx)
      exact accounts_after h (Session.outcome_setObjective h.describes hknown hadmissible.2)
        (fun _ _ _ haimed h => ⟨⟨h.describes, h.created, h.assured⟩,
          .inr ⟨e, direction, haimed, rfl⟩⟩) hperform
  | solve options =>
      have hperform : course.after (Session.solve options) (fun _ course => course) = some course' :=
        hperform
      refine accounts_after h (Session.outcome_solve h.describes options) ?_ hperform
      rintro _ _ _ ⟨rfl, hconcludes⟩ h
      exact ⟨h, .inl ⟨⟨rfl, hconcludes.objective_eq⟩, rfl⟩⟩
  | iterate options steps =>
      rw [perform] at hperform
      split at hperform
      · next it hit =>
        obtain ⟨hnone, rfl⟩ := Session.iteration?_eq_ok_iff.mp hit
        obtain ⟨it', hadvance, rfl⟩ := Option.map_eq_some_iff.mp hperform
        obtain ⟨g', hle, h', hobjective⟩ := Iteration.describes_advance
          (Iteration.describes_start h.describes) hadvance
        exact ⟨g', hle, h.mono hle h'.session,
          .inl ⟨Session.sameAim_of_none h.describes h'.session hnone hobjective, rfl⟩⟩
      · obtain rfl := Option.some.inj hperform
        exact ⟨g, .refl g, ⟨h.describes, h.created, h.assured⟩, .inl ⟨.refl g course.session, rfl⟩⟩
  | enumerate limit options =>
      exact accounts_after h (Session.outcome_enumerate h.describes limit options)
        (fun _ _ _ hsame h => ⟨⟨h.describes, h.created, h.assured⟩, .inl ⟨hsame, rfl⟩⟩) hperform

/-- The account of a fresh session, of which nothing is known. -/
def unwritten : Account := { registry := { lookup := fun id => .bool ⟨id, ""⟩, next := 0 } }

theorem accounts_start : Accounts scope unwritten {} := by
  have hempty : ∀ (i : Nat) (id : VarId), unwritten.owners[i]? ≠ some id := by simp [unwritten]
  refine ⟨⟨⟨?_, Engine.Tracks.fresh, rfl, rfl, ?_⟩, rfl, by simp, fun _ => rfl⟩, by simp, by simp⟩
  · exact ⟨rfl, Engine.Tracks.fresh.proper, by simp [unwritten], fun i id h => absurd h (hempty i id)⟩
  · intro id v
    constructor
    · intro h
      cases h
    · rintro ⟨i, hi, -⟩
      exact absurd hi (hempty i id)

/-- There is an account of every reachable course. -/
theorem exists_accounts {permitted : Course → Command → Prop}
    (hpermitted : ∀ course command, permitted course command → command.Admissible scope course)
    (h : Reachable permitted course) : ∃ g, Accounts scope g course := by
  induction h with
  | start => exact ⟨_, accounts_start⟩
  | step _ hcommand hperform ih =>
      obtain ⟨g, hg⟩ := ih
      obtain ⟨g', -, hg', -⟩ := accounts_perform hg (hpermitted _ _ hcommand) hperform
      exact ⟨g', hg'⟩

end Course

end FiniteDomain
