import FiniteDomain.Proofs.Constraint.Preservation
import FiniteDomain.Proofs.MiniZinc.Calls
import FiniteDomain.Proofs.MiniZinc.Runs
import FiniteDomain.Proofs.MiniZinc.Transcripts
import Mathlib.Data.List.TakeWhile

/-!
# Reading back what was declared

A run prints one line for each declared name. Only the lines of identifiers can be read, so the
solution is read back if and only if all declared names are identifiers; and they are if and only
if the names of the variables are made of letters, digits, underscores and what is left out or
replaced, and begin with none of the digits.
-/

namespace FiniteDomain.MiniZinc

open Text

/-! ## Names that make identifiers -/

/-- The characters that are replaced by an underscore. -/
def replaced : List Char := [',', '.', ' ', '[']

/-- Without closing brackets, the name begins with a letter, an underscore or a character that is
replaced, and goes on with these and digits. -/
def MakesIdentifier (name : String) : Prop :=
  (∃ c ∈ (name.toList.filter (· != ']')).head?, isIdentStart c ∨ c ∈ replaced) ∧
    ∀ c ∈ name.toList, isIdentRest c ∨ c ∈ replaced ∨ c = ']'

instance (name : String) : Decidable (MakesIdentifier name) :=
  decidable_of_iff ((name.toList.filter (· != ']')).head?.any
      (fun c => decide (isIdentStart c ∨ c ∈ replaced)) ∧
    name.toList.all fun c => decide (isIdentRest c ∨ c ∈ replaced ∨ c = ']')) <| by
    rw [MakesIdentifier, Option.any_eq_true, List.all_eq_true]
    simp

theorem sanitized_eq (c : Char) : sanitized c = if c ∈ replaced then '_' else c := by
  simp [sanitized, replaced, or_assoc]

theorem isIdentStart_sanitized {c : Char} :
    isIdentStart (sanitized c) = true ↔ isIdentStart c = true ∨ c ∈ replaced := by
  rw [sanitized_eq]
  split
  · next h => simp [h, isIdentStart]
  · next h => simp [h]

theorem isIdentRest_sanitized {c : Char} :
    isIdentRest (sanitized c) = true ↔ isIdentRest c = true ∨ c ∈ replaced := by
  rw [sanitized_eq]
  split
  · next h => simp [h, isIdentRest]
  · next h => simp [h]

/-- Only these names are turned into identifiers. -/
theorem isIdentifier_sanitize_iff (name : String) :
    IsIdentifier (sanitize name).toList ↔ MakesIdentifier name := by
  rw [IsIdentifier, MakesIdentifier, toList_sanitize, List.forall_mem_map]
  refine and_congr ?_ ?_
  · cases (name.toList.filter (· != ']')) with
    | nil => simp
    | cons c cs => simp [isIdentStart_sanitized]
  · simp only [isIdentRest_sanitized, List.mem_filter, bne_iff_ne]
    refine forall_congr' fun c => ?_
    tauto

/-! ## Declared names -/

section Declared

variable {p : Program}

/-- The name of a variable is the sanitized one with numbers behind it. -/
theorem exists_candidate_eq (x : Variable) (count : Nat) :
    ∃ rest, (candidate x count).toList = (sanitize x.name).toList ++ rest ∧
      ∀ c ∈ rest, isIdentRest c := by
  induction count with
  | zero => exact ⟨[], by simp [candidate_zero], by simp⟩
  | succ count ih =>
      obtain ⟨rest, heq, hrest⟩ := ih
      refine ⟨rest ++ '_' :: numeral x.id, by rw [toList_candidate_succ, heq, List.append_assoc],
        List.forall_mem_append.mpr ⟨hrest, List.forall_mem_cons.mpr ⟨rfl, fun c hc => ?_⟩⟩⟩
      exact isIdentRest_of_isDigit (isDigit_of_mem_numeral hc)

theorem Program.Orderly.exists_name_eq (h : p.Orderly) {d : Declaration}
    (hd : d ∈ p.declarations.toList) :
    ∃ rest, d.name.toList = (sanitize d.var.name).toList ++ rest ∧ ∀ c ∈ rest, isIdentRest c := by
  obtain ⟨before, after, hsplit⟩ := List.append_of_mem hd
  obtain ⟨k, hk, -, -⟩ := h.first_free before d after hsplit
  exact hk ▸ exists_candidate_eq d.var k

/-- A number makes no difference: an empty name is declared as it is before one with a number
is. -/
theorem Program.Orderly.isIdentifier_iff (h : p.Orderly) :
    (∀ d ∈ p.declarations.toList, IsIdentifier d.name.toList) ↔
      ∀ x ∈ p.declared, MakesIdentifier x.name := by
  simp only [declared, List.forall_mem_map, ← isIdentifier_sanitize_iff]
  constructor
  · intro hall
    have hempty : ∀ d ∈ p.declarations.toList, sanitize d.var.name ≠ "" := by
      intro d hd heq
      obtain ⟨e, he⟩ : ∃ e, p.declarations.toList.find? (sanitize ·.var.name == "") = some e :=
        Option.isSome_iff_exists.mp (List.find?_isSome.mpr ⟨d, hd, by simp [heq]⟩)
      have hmem := List.mem_of_find?_eq_some he
      have hname := (h.name_eq_iff hmem (by simp)).mpr he
      obtain ⟨c, rest, hcons, -⟩ := (hall e hmem).exists_cons
      simp [hname] at hcons
    intro d hd
    obtain ⟨rest, heq, -⟩ := h.exists_name_eq hd
    exact (heq ▸ hall d hd).of_append (by simpa using hempty d hd)
  · intro hall d hd
    obtain ⟨rest, heq, hrest⟩ := h.exists_name_eq hd
    exact heq ▸ (hall d hd).append hrest

end Declared

/-! ## What is read -/

theorem isIdentifier_of_parseAssignment? {line : List Char} {name : String} {v : Int}
    (h : parseAssignment? line = some (name, v)) : IsIdentifier name.toList := by
  simp only [parseAssignment?, Option.bind_eq_bind, Option.bind_eq_some_iff, Option.pure_def,
    Option.guard_eq_some', Option.some.injEq, Prod.mk.injEq] at h
  obtain ⟨start, hhead, -, hstart, -, -, -, -, -, -, rfl, -⟩ := h
  obtain ⟨rest, rfl⟩ : ∃ rest, line = start :: rest := by
    cases line with
    | nil => simp at hhead
    | cons c cs => exact ⟨cs, by simpa using hhead⟩
  rw [String.toList_ofList, List.takeWhile_cons_of_pos (isIdentRest_of_isIdentStart hstart),
    isIdentifier_cons_iff]
  exact ⟨hstart, fun d hd => List.mem_takeWhile_imp hd⟩

/-- Only identifiers are read. -/
theorem isIdentifier_of_parseSolution {values out : List (String × Int)}
    {ls : List (List Char)} (h : parseSolution values ls = .ok out)
    (hvalues : ∀ entry ∈ values, IsIdentifier entry.1.toList) :
    ∀ entry ∈ out, IsIdentifier entry.1.toList := by
  induction ls generalizing values with
  | nil => exact Except.ok.inj h ▸ hvalues
  | cons line ls ih =>
      simp only [parseSolution] at h
      split at h
      · exact ih h hvalues
      · split at h
        · cases h
        · next name v hparsed =>
          split at h
          · exact ih h (List.forall_mem_cons.mpr
              ⟨isIdentifier_of_parseAssignment? hparsed, hvalues⟩)
          · cases h

theorem isIdentifier_of_parseOutput {stdout stderr : String} {success optimising : Bool}
    {output : Output} (h : parseOutput stdout stderr success optimising = .ok output)
    {name : String} {v : Int} (hv : output.values.lookup name = some v) :
    IsIdentifier name.toList := by
  have hidentifiers : ∀ entry ∈ output.values, IsIdentifier entry.1.toList := by
    rw [parseOutput] at h
    split at h
    · obtain ⟨values, hvalues, h⟩ := bind_eq_ok_iff.mp h
      obtain rfl := Except.ok.inj h
      exact isIdentifier_of_parseSolution hvalues (by simp)
    · obtain rfl := Except.ok.inj h
      simp
  obtain ⟨before, after, heq, -⟩ := List.lookup_eq_some_iff.mp hv
  exact hidentifiers (name, v) (heq ▸ by simp)

/-! ## What is printed -/

section Printed

variable {p : Program} {order : List Declaration} {choice : VarId → Value}

/-- A line for each of the declarations, with the value of its variable. -/
def linesOf (choice : VarId → Value) (order : List Declaration) : List Line :=
  order.map fun d => .entry d.name (choice d.var.id)

theorem entries_linesOf :
    (linesOf choice order).filterMap Line.entry? =
      order.map fun d => (d.name, choice d.var.id) := by
  simp only [linesOf, List.filterMap_map, Function.comp_def, Line.entry?, List.filterMap_eq_map']

theorem Program.Orderly.names_nodup (h : p.Orderly) :
    (p.declarations.toList.map (·.name)).Nodup := by
  have hids := h.ids_nodup
  rw [declared, List.map_map] at hids
  exact (List.Nodup.of_map _ hids).map_on fun d hd e he hname => h.eq_of_name_eq hd he hname

/-- The lines print the values of the declared variables, if the names are identifiers. -/
theorem prints_linesOf (h : p.Orderly) (horder : order.Perm p.declarations.toList)
    (hnames : ∀ d ∈ p.declarations.toList, IsIdentifier d.name.toList)
    (hfits : ∀ id, word64.Fits (choice id).number) :
    Prints (fun name => (order.map fun d => (d.name, choice d.var.id)).lookup name)
      (linesOf choice order) := by
  refine prints_lookup (List.forall_mem_map.mpr fun d hd => ?_) ?_ (entries_linesOf ▸ .refl _)
  · exact ⟨hnames d (horder.mem_iff.mp hd), hfits d.var.id⟩
  · rw [List.map_map]
    exact (horder.map (·.name)).nodup_iff.mpr h.names_nodup

/-- The values stand at the names. -/
theorem lookup_order (h : p.Orderly) (horder : order.Perm p.declarations.toList)
    {d : Declaration} (hd : d ∈ p.declarations.toList) :
    (order.map fun d => (d.name, choice d.var.id)).lookup d.name = some (choice d.var.id) := by
  rw [lookup_eq_some_iff_mem]
  · exact List.mem_map.mpr ⟨d, horder.mem_iff.mpr hd, rfl⟩
  · rw [List.map_map]
    exact (horder.map (·.name)).nodup_iff.mpr h.names_nodup

/-- The output of a run: a line for each of the declarations, the separator, and remarks. -/
def answer (choice : VarId → Value) (order : List Declaration) (closing : List (List Char))
    (ending : Option (List (List Char))) : Transcript where
  blocks := [linesOf choice order]
  closing := closing
  ending := ending

/-- If the names are identifiers then their values are read. -/
theorem exists_parseOutput_answer (h : p.Orderly) (horder : order.Perm p.declarations.toList)
    (hnames : ∀ d ∈ p.declarations.toList, IsIdentifier d.name.toList)
    (hfits : ∀ id, word64.Fits (choice id).number) {closing : List (List Char)}
    {ending : Option (List (List Char))} (hclosing : ∀ l ∈ closing, IsRemark l)
    (hending : ∀ ls ∈ ending, ∀ l ∈ ls, IsRemark l) (stderr : String) (success optimising : Bool) :
    ∃ output, parseOutput (answer choice order closing ending).text stderr success optimising =
        .ok output ∧ output.status.hasSolution ∧
      ∀ d ∈ p.declarations.toList,
        output.values.lookup d.name = some (choice d.var.id).number := by
  have hprints := prints_linesOf h horder hnames hfits
  have hshows : (answer choice order closing ending).Shows _ :=
    ⟨.cons hprints .nil, hclosing, hending⟩
  have hstatus := hshows.statusOf_eq (List.cons_ne_nil _ _) stderr.toList success optimising
  have hsolution : ((answer choice order closing ending).status optimising).hasSolution := by
    rw [Transcript.status]
    repeat' split
    all_goals rfl
  have hafter : ∀ l ∈ (answer choice order closing ending).after,
      ¬ solutionSeparator.toList <:+: l := by
    intro l hl
    rcases hshows.quiet_after hl with hquiet | ⟨rfl, -⟩
    · exact hquiet.no_separator
    · exact fun hin => absurd (hin.mem (by decide : '-' ∈ _)) (by decide)
  have htext : (answer choice order closing ending).text.toList = unlines
      (separated [] ++ (linesOf choice order).map Line.text ++
        solutionSeparator.toList :: (answer choice order closing ending).after) := by
    simp [Transcript.text, Transcript.lines, answer, separated]
  have hvalues := parseSolution_lastSolution [] hprints.proper hafter
  rw [← htext] at hvalues
  obtain ⟨output, houtput, hread_status, hread⟩ :=
    Transcript.exists_parseOutput hstatus hsolution hvalues
  refine ⟨output, houtput, hread_status ▸ hsolution, fun d hd => ?_⟩
  rw [hread, hprints.lookup_eq, lookup_order h horder hd, Option.map_some]

end Printed

/-! ## Reading back -/

variable {p : Program} {calls : List Call} {s : Lowering.State MiniZinc}

/-- The value of a variable is what was read at its name. -/
theorem Program.Orderly.name?_eq_some (h : p.Orderly) {d : Declaration}
    (hd : d ∈ p.declarations.toList) : p.name? d.var.id = some d.name := by
  obtain ⟨name, hname⟩ := Option.isSome_iff_exists.mp
    (isSome_name?_iff.mpr ⟨d.var, List.mem_map_of_mem hd, rfl⟩)
  have heq := h.names_eq hd
  rw [names, hname, Option.getD_some] at heq
  rw [hname, heq]

theorem value_of_declared (h : p.Orderly) {b : MiniZinc} (hprogram : b.program = p)
    {d : Declaration} (hd : d ∈ p.declarations.toList) {x : Variable} (hid : d.var.id = x.id) :
    b.value x = b.solution.lookup d.name := by
  rw [MiniZinc.value, hprogram, ← hid, h.name?_eq_some hd, Option.bind_some]

/-- A solve succeeds exactly if its output can be read. -/
theorem solve_of_printed {options : SolveOptions} {printed : Printed}
    (hprinted : s.backend.printed options.timeLimit = .ok (some printed)) :
    match solve options s with
    | .ok status s' => ∃ output, s.backend.interpret printed = .ok output ∧
        status = output.status ∧ s'.backend.solution = output.values ∧
          s'.backend.program = s.backend.program
    | .error _ _ => ∃ e, s.backend.interpret printed = .error e := by
  have hsolve := solve_apply options s
  have hheard : s.backend.heard options.timeLimit = (s.backend.interpret printed).map some := by
    rw [heard, hprinted]
  rw [hheard] at hsolve
  generalize solve options s = r at hsolve ⊢
  rcases r with ⟨status, s'⟩ | ⟨stop, s'⟩
  · obtain ⟨output?, houtput, htold⟩ := hsolve
    cases hread : s.backend.interpret printed with
    | error e =>
        rw [hread] at houtput
        cases houtput
    | ok output =>
        rw [hread] at houtput
        obtain rfl : some output = output? := Except.ok.inj houtput
        exact ⟨output, rfl, htold.status_eq, htold.solution_eq, htold.program_eq⟩
  · obtain ⟨e, -, houtput⟩ := hsolve
    cases hread : s.backend.interpret printed with
    | error e' => exact ⟨e', rfl⟩
    | ok output =>
        rw [hread] at houtput
        cases houtput

/-- Any values of the declared variables are read back if and only if all their names make
identifiers. -/
theorem declared_read_back {options : SolveOptions} {order : List Declaration}
    {choice : VarId → Value} {closing : List (List Char)} {ending : Option (List (List Char))}
    {printed : Printed} (hprogram : s.backend.program = programAfter calls)
    (horder : order.Perm (programAfter calls).declarations.toList)
    (hfits : ∀ id, word64.Fits (choice id).number) (hclosing : ∀ l ∈ closing, IsRemark l)
    (hending : ∀ ls ∈ ending, ∀ l ∈ ls, IsRemark l)
    (hprinted : s.backend.printed options.timeLimit = .ok (some printed))
    (htext : printed.stdout = (answer choice order closing ending).text) :
    (∃ status s', solve options s = .ok status s' ∧ status.hasSolution ∧
        ∀ call ∈ calls, ∀ x ∈ call.written,
          s'.backend.value x = some (choice x.id).number) ↔
      ∀ x ∈ (programAfter calls).declared, MakesIdentifier x.name := by
  have horderly := orderly_programAfter calls
  have hsolve := solve_of_printed hprinted
  rw [← horderly.isIdentifier_iff]
  constructor
  · rintro ⟨status, s', hok, -, hvalues⟩ d hd
    rw [hok] at hsolve
    obtain ⟨output, houtput, -, hsolution, hkept⟩ := hsolve
    obtain ⟨call, hcall, hx⟩ : ∃ call ∈ calls, d.var ∈ call.written := by
      have hmet : d.var ∈ (programAfter calls).declared := List.mem_map_of_mem hd
      rw [declared_programAfter] at hmet
      exact List.mem_flatMap.mp ((mem_of_mem_met hmet).resolve_left (by simp))
    have hvalue := hvalues call hcall d.var hx
    rw [value_of_declared horderly (hkept.trans hprogram) hd rfl, hsolution] at hvalue
    exact isIdentifier_of_parseOutput houtput hvalue
  · intro hnames
    obtain ⟨output, houtput, hfound, hread⟩ := exists_parseOutput_answer horderly horder hnames
      hfits hclosing hending printed.stderr printed.success s.backend.program.objective.isSome
    rw [← htext] at houtput
    cases hresult : solve options s with
    | error stop s' =>
        rw [hresult] at hsolve
        obtain ⟨e, he⟩ := hsolve
        cases houtput.symm.trans he
    | ok status s' =>
        rw [hresult] at hsolve
        obtain ⟨output', houtput', rfl, hsolution, hkept⟩ := hsolve
        obtain rfl := Except.ok.inj (houtput.symm.trans houtput')
        refine ⟨_, s', rfl, hfound, fun call hcall x hx => ?_⟩
        obtain ⟨d, hd, hid⟩ := exists_declaration hcall hx
        rw [value_of_declared horderly (hkept.trans hprogram) hd hid, hsolution, hread d hd, hid]

/-- The calls were made, and the next run prints the values in the order of the declarations. -/
def answering (calls : List Call) (choice : VarId → Value) : Lowering.State MiniZinc where
  backend :=
    { program := programAfter calls
      process.replies := [.finished
        (answer choice (programAfter calls).declarations.toList [[]] none).text.toUTF8 .empty 0] }

/-- What is printed, if it is a text. -/
def stdout? (b : MiniZinc) : Option String :=
  match b.printed none with
  | .ok (some printed) => some printed.stdout
  | _ => none

theorem printed_of_stdout? {b : MiniZinc} {text : String} (h : stdout? b = some text) :
    ∃ printed : Printed, b.printed none = .ok (some printed) ∧ printed.stdout = text := by
  rw [stdout?] at h
  split at h
  · next printed hprinted => exact ⟨printed, hprinted, Option.some.inj h⟩
  · cases h

/-- Two variables whose names differ in a character that is replaced. -/
def similar : List Variable :=
  [.int ⟨0, "a b", .interval (-9) 9 (by decide) (by decide)⟩, .bool ⟨1, "a.b"⟩]

/-- A negative value, and a truth value. -/
def similarChoice : VarId → Value := fun id => if id = 0 then .int (-7) else .bool true

/-- The two are declared under names that can be told apart, and are read back. -/
theorem declared_read_back_similar :
    (answer similarChoice (programAfter (similar.map .bind)).declarations.toList [[]] none).text =
        "a_b = -7;\na_b_1 = true;\n----------\n" ∧
      ∃ status s', solve {} (answering (similar.map .bind) similarChoice) = .ok status s' ∧
        similar.map s'.backend.value = [some (-7), some 1] := by
  have hnames : ∀ x ∈ (programAfter (similar.map .bind)).declared, MakesIdentifier x.name := by
    decide +kernel
  have htext : (answer similarChoice (programAfter (similar.map .bind)).declarations.toList
      [[]] none).text = "a_b = -7;\na_b_1 = true;\n----------\n" := by
    decide +kernel
  have hstdout : stdout? (answering (similar.map .bind) similarChoice).backend =
      some "a_b = -7;\na_b_1 = true;\n----------\n" := by
    decide +kernel
  obtain ⟨printed, hprinted, hprintedText⟩ := printed_of_stdout? hstdout
  have hfits : ∀ id, word64.Fits (similarChoice id).number := by
    intro id
    rw [similarChoice]
    split <;> decide
  have hblank : IsRemark [] := .blank (by simp) (by simp)
  obtain ⟨status, s', hsolve, -, hvalues⟩ := (declared_read_back rfl (.refl _) hfits
    (by simpa using hblank) (by simp) hprinted (hprintedText.trans htext.symm)).mpr hnames
  have hvalue : ∀ x ∈ similar, s'.backend.value x = some (similarChoice x.id).number :=
    fun x hx => hvalues (.bind x) (List.mem_map_of_mem hx) x (List.mem_singleton_self x)
  refine ⟨htext, status, s', hsolve, ?_⟩
  rw [List.map_congr_left hvalue]
  rfl

/-- A variable with a hyphen in its name. -/
def hyphenated : Variable := .int { digit 0 with name := "x-y" }

/-- The hyphen stays in the declaration, and the line for the name cannot be read. -/
theorem hyphenated_unreadable :
    let choice : VarId → Value := fun _ => .int 3
    let s := answering [.bind hyphenated] choice
    s.backend.program.declarations.toList.map Declaration.text = ["var 0..9: x-y;"] ∧
      stdout? s.backend =
        some (answer choice s.backend.program.declarations.toList [[]] none).text ∧
      stdout? s.backend = some "x-y = 3;\n----------\n" ∧
      ∃ s', solve {} s = .error (.error (.invalidLine "x-y = 3;")) s' := by
  intro choice s
  have hrun : (match solve {} s with
    | .error (.error (.invalidLine line)) _ => line == "x-y = 3;"
    | _ => false) = true := by decide +kernel
  refine ⟨by decide +kernel, by decide +kernel, by decide +kernel, ?_⟩
  split at hrun
  · next line s' hsolve => exact ⟨s', beq_iff_eq.mp hrun ▸ hsolve⟩
  · cases hrun

end FiniteDomain.MiniZinc
