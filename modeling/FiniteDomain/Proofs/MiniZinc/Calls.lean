import FiniteDomain.MiniZinc.Backend
import FiniteDomain.Proofs.Engine.Narrowing
import FiniteDomain.Proofs.MiniZinc.Declarations
import FiniteDomain.Proofs.MiniZinc.Programs
import FiniteDomain.Proofs.MiniZinc.Writing

/-!
# The program after any calls

Variables are bound, constraints posted and objectives set in any order. Every call declares the
variables that it writes and adds its item; what was declared before stays as it is, so a text
that was written once reads the same in every later program.
-/

namespace FiniteDomain.MiniZinc

/-- A call on the backend. -/
inductive Call where
  | bind (x : Variable)
  | post (c : Constraint)
  | setObjective (e : Expr) (direction : Direction)

namespace Call

/-- The variables that the call writes, in order. -/
def written : Call → List Variable
  | bind x => [x]
  | post c => writtenInConstraint c
  | setObjective e _ => writtenIn e

/-- The text that the call writes, if it adds an item. -/
def text? (names : Names) : Call → Option String
  | bind _ => none
  | post c => some (renderConstraint names c)
  | setObjective e _ => some (renderExpr names e)

/-- What the call returns: a variable that is bound is answered by its name. -/
def answer (names : Names) : Call → Option String
  | bind x => some (names x.id)
  | post _ => none
  | setObjective _ _ => none

/-- Makes the call. -/
def perform : Call → Action (Option String)
  | bind x => do return some (← MiniZinc.bind x)
  | post c => do
    MiniZinc.post c
    return none
  | setObjective e direction => do
    MiniZinc.setObjective e direction
    return none

/-- The constraint that the call posts. -/
def posted? : Call → Option Constraint
  | post c => some c
  | _ => none

/-- The objective that the call sets. -/
def objective? : Call → Option (Expr × Direction)
  | setObjective e direction => some (e, direction)
  | _ => none

/-- The text needs the names of the variables that the call writes only. -/
theorem text?_congr {call : Call} {names names' : Names}
    (h : ∀ x ∈ call.written, names x.id = names' x.id) :
    call.text? names = call.text? names' := by
  cases call with
  | bind x => rfl
  | post c => exact congrArg some (renderConstraint_congr h)
  | setObjective e direction => exact congrArg some (renderExpr_congr h)

/-- The names of the variables that the call writes stand in the text. -/
theorem spells_text? {call : Call} {names : Names} {text : String} {x : Variable}
    (htext : call.text? names = some text) (hx : x ∈ call.written) : Spells text (names x.id) := by
  cases call with
  | bind y => cases htext
  | post c =>
      cases htext
      exact spells_renderConstraint hx
  | setObjective e direction =>
      cases htext
      exact spells_renderExpr hx

theorem answer_congr {call : Call} {names names' : Names}
    (h : ∀ x ∈ call.written, names x.id = names' x.id) :
    call.answer names = call.answer names' := by
  cases call with
  | bind x => exact congrArg some (h x (List.mem_singleton_self x))
  | post c => rfl
  | setObjective e direction => rfl

end Call

/-! ## One call -/

namespace Program

variable {p q : Program} {x : Variable} {call : Call} {calls : List Call}

/-- The program after a call. -/
def after (p : Program) : Call → Program
  | .bind x => p.declare x
  | .post c => p.addConstraint c
  | .setObjective e direction => p.setObjective e direction

theorem declarations_after (p : Program) (call : Call) :
    (p.after call).declarations = (p.declareAll call.written).declarations := by
  cases call <;> rfl

theorem declared_after (p : Program) (call : Call) :
    (p.after call).declared = met p.declared call.written := by
  rw [declared, declarations_after]
  exact declared_declareAll p call.written

theorem extends_after (p : Program) (call : Call) : p.Extends (p.after call) := by
  rw [Extends, declarations_after]
  exact extends_declareAll p call.written

theorem Orderly.of_declarations (h : p.Orderly) (heq : q.declarations = p.declarations) :
    q.Orderly := by
  refine ⟨?_, ?_⟩
  · rw [declared, heq]
    exact h.ids_nodup
  · rw [heq]
    exact h.first_free

theorem Orderly.after (h : p.Orderly) (call : Call) : (p.after call).Orderly :=
  (h.declareAll call.written).of_declarations (declarations_after p call)

theorem declareAll_constraints (p : Program) (xs : List Variable) :
    (p.declareAll xs).constraints = p.constraints ∧ (p.declareAll xs).objective = p.objective := by
  induction xs generalizing p with
  | nil => exact ⟨rfl, rfl⟩
  | cons x xs ih =>
      rw [declareAll_cons, (ih _).1, (ih _).2, declare]
      split <;> exact ⟨rfl, rfl⟩

theorem constraints_after (p : Program) (call : Call) :
    (p.after call).constraints.toList = p.constraints.toList ++ call.posted?.toList := by
  cases call with
  | bind x =>
      have hkept : (p.declare x).constraints = p.constraints := (declareAll_constraints p [x]).1
      simp [after, Call.posted?, hkept]
  | post c => simp [after, Call.posted?, addConstraint, (declareAll_constraints p _).1]
  | setObjective e direction =>
      simp [after, Call.posted?, setObjective, (declareAll_constraints p _).1]

theorem objective_after (p : Program) (call : Call) :
    (p.after call).objective = call.objective?.or p.objective := by
  cases call with
  | bind x => exact (declareAll_constraints p [x]).2
  | post c => exact (declareAll_constraints p _).2
  | setObjective e direction => rfl

end Program

/-! ## Making calls -/

variable {call : Call} {calls : List Call}

/-- Noting several events changes the journal only. -/
theorem forM_note_apply {α : Type} (f : α → Event) (items : List α)
    (s : Lowering.State MiniZinc) :
    ∃ journal, (items.forM fun a => Lowering.note (f a) : Action Unit) s =
      .ok ⟨⟩ { s with journal } := by
  induction items generalizing s with
  | nil => exact ⟨s.journal, rfl⟩
  | cons a items ih => exact ih { s with journal := s.journal.push (f a) }

theorem extend_apply (f : Program → Program) (s : Lowering.State MiniZinc) :
    ∃ journal, extend f s =
      .ok ⟨⟩ { s with backend := { s.backend with program := f s.backend.program }, journal } := by
  obtain ⟨journal, hjournal⟩ := forM_note_apply (fun d => .declared d.text)
    ((f s.backend.program).declarations.toList.drop s.backend.program.declarations.size)
    { s with backend := { s.backend with program := f s.backend.program } }
  exact ⟨journal, hjournal⟩

/-- A call succeeds, and changes the program and the journal only. -/
theorem perform_apply (call : Call) (s : Lowering.State MiniZinc) :
    ∃ journal, call.perform s =
      .ok (call.answer (s.backend.program.after call).names)
        { s with
          backend := { s.backend with program := s.backend.program.after call }, journal } := by
  cases call with
  | bind x =>
      obtain ⟨journal, h⟩ := extend_apply (·.declare x) s
      exact ⟨journal, by simp only [Call.perform, bind, Bind.bind, EStateM.bind, h]; rfl⟩
  | post c =>
      obtain ⟨journal, h⟩ := extend_apply (·.addConstraint c) s
      exact ⟨_, by simp only [Call.perform, post, Bind.bind, EStateM.bind, h]; rfl⟩
  | setObjective e direction =>
      obtain ⟨journal, h⟩ := extend_apply (·.setObjective e direction) s
      exact ⟨_, by simp only [Call.perform, setObjective, Bind.bind, EStateM.bind, h]; rfl⟩

/-! ## Any number of calls -/

namespace Program

variable {p : Program} {x : Variable}

/-- The program after calls. -/
def afterAll (p : Program) (calls : List Call) : Program := calls.foldl after p

theorem afterAll_cons (p : Program) (call : Call) (calls : List Call) :
    p.afterAll (call :: calls) = (p.after call).afterAll calls := rfl

theorem afterAll_append (p : Program) (before after : List Call) :
    p.afterAll (before ++ after) = (p.afterAll before).afterAll after := List.foldl_append

theorem extends_afterAll (p : Program) (calls : List Call) : p.Extends (p.afterAll calls) := by
  induction calls generalizing p with
  | nil => exact .refl p
  | cons call calls ih => exact (extends_after p call).trans (ih (p.after call))

theorem Orderly.afterAll (h : p.Orderly) (calls : List Call) : (p.afterAll calls).Orderly := by
  induction calls generalizing p with
  | nil => exact h
  | cons call calls ih => exact ih (h.after call)

theorem declared_afterAll (p : Program) (calls : List Call) :
    (p.afterAll calls).declared = met p.declared (calls.flatMap Call.written) := by
  induction calls generalizing p with
  | nil => rfl
  | cons call calls ih =>
      rw [afterAll_cons, ih, declared_after, List.flatMap_cons, met, met, met, List.foldl_append]

theorem constraints_afterAll (p : Program) (calls : List Call) :
    (p.afterAll calls).constraints.toList =
      p.constraints.toList ++ calls.filterMap Call.posted? := by
  induction calls generalizing p with
  | nil => simp [afterAll]
  | cons call calls ih =>
      rw [afterAll_cons, ih, constraints_after, List.append_assoc, List.filterMap_cons]
      cases call.posted? <;> rfl

theorem objective_afterAll (p : Program) (calls : List Call) :
    (p.afterAll calls).objective =
      (calls.filterMap Call.objective?).getLast?.or p.objective := by
  induction calls generalizing p with
  | nil => rfl
  | cons call calls ih =>
      rw [afterAll_cons, ih, objective_after, List.filterMap_cons]
      cases call.objective? with
      | none => rfl
      | some objective => simp [List.getLast?_cons]

/-- The variables that a call writes are declared from then on. -/
theorem isSome_name?_after (p : Program) (hx : x ∈ call.written) :
    ((p.after call).name? x.id).isSome := by
  rw [isSome_name?_iff, declared_after]
  exact exists_mem_met _ hx

/-- They keep their names whatever is called afterwards. -/
theorem names_after_eq (p : Program) (call : Call) (calls : List Call) :
    ∀ x ∈ call.written, (p.after call).names x.id = ((p.after call).afterAll calls).names x.id :=
  fun _ hx => ((extends_afterAll _ calls).names_eq (isSome_name?_after p hx)).symm

end Program

/-- Calls succeed, and a variable is answered by its name in the program that they make. -/
theorem mapM_perform_apply (calls : List Call) (s : Lowering.State MiniZinc) :
    ∃ journal, calls.mapM Call.perform s =
      .ok (calls.map (Call.answer (s.backend.program.afterAll calls).names))
        { s with
          backend := { s.backend with program := s.backend.program.afterAll calls }, journal } := by
  induction calls generalizing s with
  | nil => exact ⟨s.journal, rfl⟩
  | cons call calls ih =>
      obtain ⟨journal, hcall⟩ := perform_apply call s
      obtain ⟨journal', hcalls⟩ := ih
        { s with backend := { s.backend with program := s.backend.program.after call }, journal }
      refine ⟨journal', ?_⟩
      have hanswer := Call.answer_congr (s.backend.program.names_after_eq call calls)
      simp only [List.mapM_cons, Bind.bind, EStateM.bind, hcall, hcalls, hanswer]
      rfl

/-! ## What the program says about the calls -/

/-- The program that calls on a new backend make. -/
def programAfter (calls : List Call) : Program := ({} : Program).afterAll calls

/-- The solve item for the last objective, if there is one. -/
def solveText (names : Names) : Option (Expr × Direction) → String
  | none => "solve satisfy;"
  | some (e, .minimise) => "solve minimize " ++ renderExpr names e ++ ";"
  | some (e, .maximise) => "solve maximize " ++ renderExpr names e ++ ";"

/-- The program is well-scoped: each of its names is declared once, and says which variable is
meant. -/
structure Program.WellScoped (p : Program) (calls : List Call) : Prop where
  /-- The variables are declared in the order in which they are met. -/
  declarations_eq : p.declarations.toList =
    (met [] (calls.flatMap Call.written)).map fun x => ⟨x, p.names x.id⟩
  /-- The search for a name goes on until there is one that no earlier declaration has. -/
  first_free : ∀ before d after, p.declarations.toList = before ++ d :: after →
    IsFirstFree (before.map (·.name)) d.var d.name
  /-- The item of each declaration is read as its name and the domain of its variable. -/
  declares_text : ∀ d ∈ p.declarations.toList, Declares d.text d.name d.var
  declared_once : ∀ call ∈ calls, ∀ x ∈ call.written,
    p.declarations.toList.countP (·.var.id == x.id) = 1
  /-- A variable is declared with its own domain; the number of a variable is its identity. -/
  own_domain : ∀ call ∈ calls, ∀ x ∈ call.written,
    (∀ call' ∈ calls, ∀ y ∈ call'.written, y.id = x.id → y = x) →
      ⟨x, p.names x.id⟩ ∈ p.declarations.toList
  names_injective : ∀ call ∈ calls, ∀ x ∈ call.written, ∀ call' ∈ calls, ∀ y ∈ call'.written,
    p.names x.id = p.names y.id → x.id = y.id
  /-- The names of the variables that a call writes stand in its text. -/
  spells_text? : ∀ call ∈ calls, ∀ text, call.text? p.names = some text →
    ∀ x ∈ call.written, Spells text (p.names x.id)
  /-- A text that was written stays right: the names in it are still the same. -/
  text?_stable : ∀ before call after, calls = before ++ call :: after →
    call.text? (programAfter (before ++ [call])).names = call.text? p.names
  /-- No name in a text is the name of a variable that is not declared, even if the objective
  that was written is not the last one. -/
  text?_declared : ∀ call ∈ calls, ∀ names : Names,
    (∀ d ∈ p.declarations.toList, names d.var.id = d.name) →
      call.text? names = call.text? p.names
  /-- After the declaration items, one for each variable, the constraints stand in the order in which
  they were posted, and after them the solve item for the last objective. -/
  text_eq : p.text =
    Program.preamble
      ++ String.join ((met [] (calls.flatMap Call.written)).map fun x =>
          (Declaration.mk x (p.names x.id)).text ++ "\n")
      ++ String.join ((calls.filterMap Call.posted?).map fun c =>
          "constraint " ++ renderConstraint p.names c ++ ";\n")
      ++ solveText p.names (calls.filterMap Call.objective?).getLast? ++ "\n"

theorem solveItem_eq (p : Program) : p.solveItem = solveText p.names p.objective := by
  rw [Program.solveItem]
  rcases p.objective with _ | ⟨e, _ | _⟩ <;> rfl

theorem orderly_programAfter (calls : List Call) : (programAfter calls).Orderly :=
  Program.Orderly.afterAll ⟨by simp [Program.declared], fun before d after h => by simp at h⟩ calls

theorem declared_programAfter (calls : List Call) :
    (programAfter calls).declared = met [] (calls.flatMap Call.written) :=
  Program.declared_afterAll {} calls

theorem programAfter_append (before after : List Call) :
    programAfter (before ++ after) = (programAfter before).afterAll after :=
  Program.afterAll_append {} before after

/-- Each variable that a call writes is declared, if not it then another with its number. -/
theorem exists_declaration (hcall : call ∈ calls) {x : Variable} (hx : x ∈ call.written) :
    ∃ d ∈ (programAfter calls).declarations.toList, d.var.id = x.id := by
  obtain ⟨y, hy, hid⟩ := exists_mem_met [] (List.mem_flatMap.mpr ⟨call, hcall, hx⟩)
  rw [← declared_programAfter] at hy
  obtain ⟨d, hd, rfl⟩ := List.mem_map.mp hy
  exact ⟨d, hd, hid⟩

theorem wellScoped_programAfter (calls : List Call) : (programAfter calls).WellScoped calls := by
  have horderly := orderly_programAfter calls
  have hdeclarations := horderly.declarations_eq
  rw [declared_programAfter] at hdeclarations
  refine ⟨hdeclarations, horderly.first_free, fun d _ => declares_text d, fun call hcall x hx => ?_,
    fun call hcall x hx hown => ?_, fun call hcall x hx call' hcall' y hy hname => ?_,
    fun _ _ _ htext _ hx => Call.spells_text? htext hx, fun before call after hcalls => ?_,
    fun call hcall names hnames => ?_, ?_⟩
  · obtain ⟨d, hd, hid⟩ := exists_declaration hcall hx
    have hnodup := horderly.ids_nodup
    rw [Program.declared, List.map_map] at hnodup
    have hcount := List.count_eq_one_of_mem hnodup (List.mem_map_of_mem hd)
    rw [List.count, List.countP_map] at hcount
    rw [← hid]
    exact hcount
  · obtain ⟨y, hy, hid⟩ := exists_mem_met [] (List.mem_flatMap.mpr ⟨call, hcall, hx⟩)
    obtain ⟨call', hcall', hy'⟩ := List.mem_flatMap.mp ((mem_of_mem_met hy).resolve_left (by simp))
    obtain rfl := hown call' hcall' y hy' hid
    rw [hdeclarations]
    exact List.mem_map_of_mem hy
  · obtain ⟨d, hd, hdx⟩ := exists_declaration hcall hx
    obtain ⟨e, he, hey⟩ := exists_declaration hcall' hy
    rw [← hdx, ← hey, horderly.names_eq hd, horderly.names_eq he] at hname
    rw [← hdx, ← hey, horderly.eq_of_name_eq hd he hname]
  · rw [hcalls, programAfter_append, programAfter_append]
    exact Call.text?_congr ((programAfter before).names_after_eq call after)
  · refine Call.text?_congr fun x hx => ?_
    obtain ⟨d, hd, hid⟩ := exists_declaration hcall hx
    rw [← hid, hnames d hd, horderly.names_eq hd]
  · have hconstraints : (programAfter calls).constraints.toList = _ :=
      Program.constraints_afterAll {} calls
    have hobjective : (programAfter calls).objective = _ := Program.objective_afterAll {} calls
    rw [Option.or_none] at hobjective
    rw [Program.text, solveItem_eq, hdeclarations, hconstraints, hobjective, List.map_map]
    rfl

/-- Any calls on a new backend succeed, whatever variables they are about and whatever the names of
these are, and make a program that is well-scoped; a variable that is bound is answered by its
name in that program. -/
theorem calls_make_wellScoped (options : Options) (process : Process) (nextId : VarId)
    (journal : Array Event) (calls : List Call) :
    ∃ s : Lowering.State MiniZinc,
      calls.mapM Call.perform ⟨{ options, process }, nextId, journal⟩ =
        .ok (calls.map (Call.answer s.backend.program.names)) s ∧
      s.backend.program = programAfter calls ∧ s.backend.program.WellScoped calls := by
  obtain ⟨journal', hrun⟩ := mapM_perform_apply calls ⟨{ options, process }, nextId, journal⟩
  exact ⟨⟨{ options, process, program := programAfter calls }, nextId, journal'⟩, hrun, rfl,
    wellScoped_programAfter calls⟩

/-- Two names that look alike without what is replaced, and one that looks like a name with a
number. -/
example : [0, 1, 2].map (programAfter
    [.bind (.bool ⟨0, "a b"⟩), .bind (.bool ⟨1, "a.b"⟩), .bind (.bool ⟨2, "a_b_1"⟩)]).names =
      ["a_b", "a_b_1", "a_b_1_2"] := by
  decide +kernel

end FiniteDomain.MiniZinc
