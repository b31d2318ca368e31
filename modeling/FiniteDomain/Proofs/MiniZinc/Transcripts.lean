import FiniteDomain.Proofs.MiniZinc.Identifiers
import Mathlib.Data.List.Forall2
import Mathlib.Data.List.Nodup
import Mathlib.Data.Option.Basic

/-!
# Transcripts of runs that find solutions

A run that finds solutions prints each of them, in lines `name = value;` and a separator, and at
last that the search is complete, if it is. Blank lines and comments stand anywhere. What is
read in the transcript is the last solution, whatever the order of its lines.
-/

namespace FiniteDomain.MiniZinc

open Text

/-- A value in a solution. -/
inductive Value where
  | int (v : Int)
  | bool (b : Bool)

/-- The value as a number. -/
def Value.number : Value → Int
  | int v => v
  | bool b => if b then 1 else 0

/-- The value as it is printed. -/
def Value.text : Value → List Char
  | int v => (toString v).toList
  | bool b => (toString b).toList

/-- A solution is a finite map: `Prints` says that its entries are the lines of a block. -/
abbrev Solution := String → Option Value

/-- Lines that say nothing about the solution. A comment must not look like a separator. -/
inductive IsRemark : List Char → Prop where
  | blank {blanks : List Char} (hblanks : ∀ c ∈ blanks, isBlank c) (hline : '\n' ∉ blanks) :
      IsRemark blanks
  | comment {blanks text : List Char} (hblanks : ∀ c ∈ blanks, isBlank c)
      (hline : '\n' ∉ blanks ++ text) (hdashes : ¬ solutionSeparator.toList <:+: text) :
      IsRemark (blanks ++ '%' :: text)

/-- A line of a block. -/
inductive Line where
  | entry (name : String) (value : Value)
  | remark (text : List Char)

namespace Line

/-- The line as it is printed. -/
def text : Line → List Char
  | entry name value => name.toList ++ " = ".toList ++ value.text ++ [';']
  | remark text => text

/-- The entry of the solution that the line is about. -/
def entry? : Line → Option (String × Value)
  | entry name value => some (name, value)
  | remark _ => none

/-- Names are identifiers, and numbers are 64 bits long. -/
def IsProper : Line → Prop
  | entry name value => IsIdentifier name.toList ∧ word64.Fits value.number
  | remark text => IsRemark text

end Line

/-- The lines print the solution: one line for each entry, in any order. -/
structure Prints (solution : Solution) (block : List Line) : Prop where
  proper : ∀ line ∈ block, line.IsProper
  names_nodup : ((block.filterMap Line.entry?).map Prod.fst).Nodup
  mem_iff : ∀ name value, solution name = some value ↔ .entry name value ∈ block

/-- The lines of blocks, each with its separator. -/
def separated (blocks : List (List Line)) : List (List Char) :=
  blocks.flatMap fun block => block.map Line.text ++ [solutionSeparator.toList]

/-- What a run prints on its standard output. -/
structure Transcript where
  /-- The lines of each solution. -/
  blocks : List (List Line)
  /-- Remarks after the separator of the last solution. -/
  closing : List (List Char)
  /-- The search was completed; with the remarks after this was printed. -/
  ending : Option (List (List Char))

namespace Transcript

/-- The lines after the last separator. -/
def after (t : Transcript) : List (List Char) :=
  t.closing ++ (t.ending.map (searchComplete.toList :: ·)).getD []

/-- The lines of the transcript. -/
def lines (t : Transcript) : List (List Char) :=
  separated t.blocks ++ t.after

/-- The transcript as a text; a newline at its end is an empty last line. -/
def text (t : Transcript) : String := String.ofList (unlines t.lines)

/-- The transcript prints the solutions, and between them nothing but remarks. -/
structure Shows (t : Transcript) (solutions : List Solution) : Prop where
  blocks : List.Forall₂ Prints solutions t.blocks
  closing : ∀ l ∈ t.closing, IsRemark l
  ending : ∀ ls ∈ t.ending, ∀ l ∈ ls, IsRemark l

end Transcript

/-! ## Values -/

/-- The number of a value follows the equals sign up to the semicolon. -/
theorem takeValue?_text (value : Value) :
    takeValue? (value.text ++ [';']) = some (value.number, [';']) := by
  cases value with
  | int v =>
      have hend : NoneAhead Char.isDigit [';'] := noneAhead_cons rfl
      have hdigits := takeDigits?_numeral v.natAbs hend
      rw [Value.text, toList_toString_int, signedNumeral, Value.number]
      split
      · rw [List.cons_append, takeValue?, hdigits]
        simp only [Option.map_some, numberOf_numeral]
        congr 2
        omega
      · rw [takeValue?, hdigits]
        · simp only [numberOf_numeral]
          congr 2
          omega
        · intro rest hrest
          have hminus : '-' ∈ numeral v.natAbs ++ [';'] := by rw [hrest]; simp
          rw [List.mem_append, or_iff_left (by decide)] at hminus
          exact absurd (isDigit_of_mem_numeral hminus) (by decide)
  | bool b => cases b <;> rfl

/-- A value is one word: it has at most a minus sign that an identifier could not have. -/
theorem isIdentRest_of_mem_text {value : Value} {c : Char} (hc : c ∈ value.text) :
    isIdentRest c ∨ c = '-' := by
  cases value with
  | int v =>
      rw [Value.text, toList_toString_int, signedNumeral] at hc
      split at hc
      · rcases List.mem_cons.mp hc with rfl | hc
        · exact .inr rfl
        · exact .inl (isIdentRest_of_isDigit (isDigit_of_mem_numeral hc))
      · exact .inl (isIdentRest_of_isDigit (isDigit_of_mem_numeral hc))
  | bool b => cases b <;> exact .inl (List.all_eq_true.mp (by decide) c hc)

theorem count_dash_numeral (n : Nat) : (numeral n).count '-' = 0 :=
  List.count_eq_zero.mpr fun h => absurd (isDigit_of_mem_numeral h) (by decide)

theorem count_dash_text (value : Value) : value.text.count '-' ≤ 1 := by
  cases value with
  | int v =>
      rw [Value.text, toList_toString_int, signedNumeral]
      split <;> simp [count_dash_numeral]
  | bool b => cases b <;> decide

theorem isBlank_eq_false_of_mem_text {value : Value} {c : Char} (hc : c ∈ value.text) :
    isBlank c = false := by
  rcases isIdentRest_of_mem_text hc with h | rfl
  · exact isBlank_eq_false_of_isIdentRest h
  · rfl

/-! ## Lines -/

/-- A line that does not look like a line between or after the solutions. -/
structure Quiet (l : List Char) : Prop where
  no_newline : '\n' ∉ l
  no_separator : ¬ solutionSeparator.toList <:+: l
  no_marker : ∀ c ∈ (trim l).head?, c ≠ '-' ∧ c ≠ '='

theorem IsRemark.head?_trim {l : List Char} (h : IsRemark l) :
    trim l = [] ∨ (trim l).head? = some '%' := by
  cases h with
  | blank hblanks _ => exact .inl (by rw [trim, skipBlanks_of_forall hblanks]; rfl)
  | comment hblanks _ _ => exact .inr (Text.head?_trim hblanks rfl)

theorem IsRemark.quiet {l : List Char} (h : IsRemark l) : Quiet l := by
  have hmarker : ∀ c ∈ (trim l).head?, c ≠ '-' ∧ c ≠ '=' := by
    intro c hc
    rcases h.head?_trim with htrim | htrim
    · rw [htrim] at hc
      simp at hc
    · obtain rfl : '%' = c := by simpa [htrim] using hc
      decide
  have hblanks : ∀ {blanks : List Char}, (∀ c ∈ blanks, isBlank c) →
      ¬ solutionSeparator.toList <:+: blanks := fun hall hin =>
    absurd (hall '-' (hin.mem (by decide))) (by decide)
  cases h with
  | blank hall hline => exact ⟨hline, hblanks hall, hmarker⟩
  | comment hall hline hdashes =>
      refine ⟨?_, fun hin => ?_, hmarker⟩
      · simpa using hline
      · exact (infix_of_infix_append (by decide) hin).elim (hblanks hall) hdashes

theorem parseSolution_remark {l : List Char} (h : IsRemark l) (values : List (String × Int))
    (rest : List (List Char)) : parseSolution values (l :: rest) = parseSolution values rest := by
  rw [parseSolution]
  rcases h.head?_trim with htrim | htrim <;> simp [htrim]

section Entry

variable {name : String} {value : Value}

theorem text_entry (name : String) (value : Value) :
    (Line.entry name value).text =
      name.toList ++ ' ' :: '=' :: ' ' :: (value.text ++ [';']) := by
  simp [Line.text]

/-- An entry begins with the first character of its name. -/
theorem exists_head?_entry (h : (Line.entry name value).IsProper) :
    ∃ c, (Line.entry name value).text.head? = some c ∧ isIdentStart c ∧ isIdentRest c := by
  obtain ⟨c, rest, hname, hstart, hrest⟩ := h.1.exists_cons
  exact ⟨c, by rw [text_entry, hname]; rfl, hstart, hrest⟩

theorem trim_entry (h : (Line.entry name value).IsProper) :
    trim (Line.entry name value).text = (Line.entry name value).text := by
  obtain ⟨c, hhead, -, hc⟩ := exists_head?_entry h
  refine trim_of_noneAhead (fun d hd => ?_) ?_
  · obtain rfl : c = d := by simpa [hhead] using hd
    exact isBlank_eq_false_of_isIdentRest hc
  · rw [Line.text, List.reverse_append]
    exact noneAhead_cons rfl

theorem quiet_entry (h : (Line.entry name value).IsProper) :
    Quiet (Line.entry name value).text := by
  refine ⟨?_, fun hin => ?_, fun c hc => ?_⟩
  · have hvalue : '\n' ∉ value.text := fun hmem =>
      absurd (isBlank_eq_false_of_mem_text hmem) (by decide)
    have hname : '\n' ∉ name.toList := h.1.not_mem rfl
    simp [text_entry, hname, hvalue]
  · have hname : name.toList.count '-' = 0 := List.count_eq_zero.mpr (h.1.not_mem rfl)
    have hvalue := count_dash_text value
    have hcount := hin.sublist.count_le '-'
    have hdashes : solutionSeparator.toList.count '-' = 10 := by decide
    simp [text_entry, List.count_append, hname, hdashes] at hcount
    omega
  · obtain ⟨first, hhead, -, hfirst⟩ := exists_head?_entry h
    obtain rfl : first = c := by simpa [trim_entry h, hhead] using hc
    exact ⟨fun heq => absurd (heq ▸ hfirst) (by decide),
      fun heq => absurd (heq ▸ hfirst) (by decide)⟩

theorem parseAssignment?_entry (h : (Line.entry name value).IsProper) :
    parseAssignment? (Line.entry name value).text = some (name, value.number) := by
  obtain ⟨c, hhead, hstart, -⟩ := exists_head?_entry h
  have hblank : NoneAhead isIdentRest (' ' :: '=' :: ' ' :: (value.text ++ [';'])) :=
    noneAhead_cons rfl
  have hvalue : skipBlanks (' ' :: (value.text ++ [';'])) = value.text ++ [';'] := by
    have hahead : NoneAhead isBlank (value.text ++ [';']) := fun c hc => by
      rcases List.mem_append.mp (List.mem_of_mem_head? hc) with hc | hc
      · exact isBlank_eq_false_of_mem_text hc
      · obtain rfl := List.mem_singleton.mp hc
        rfl
    have hspace : ∀ c ∈ [' '], isBlank c := fun _ hc => List.mem_singleton.mp hc ▸ rfl
    exact dropWhile_chunk hspace hahead
  rw [text_entry] at hhead ⊢
  have hequals : dropStart? ['='] (skipBlanks (' ' :: '=' :: ' ' :: (value.text ++ [';']))) =
      some (' ' :: (value.text ++ [';'])) := dropStart?_append ['='] _
  have hend : skipBlanks [';'] = [';'] := rfl
  simp [parseAssignment?, hhead, hstart, takeWhile_chunk h.1.2 hblank,
    dropWhile_chunk h.1.2 hblank, hequals, hvalue, takeValue?_text, hend]

theorem parseSolution_entry (h : (Line.entry name value).IsProper) (values : List (String × Int))
    (rest : List (List Char)) :
    parseSolution values ((Line.entry name value).text :: rest) =
      parseSolution ((name, value.number) :: values) rest := by
  obtain ⟨c, hhead, -, hc⟩ := exists_head?_entry h
  have hcomment : c ≠ '%' := fun heq => absurd (heq ▸ hc) (by decide)
  have hskipped : ((Line.entry name value).text.isEmpty ||
      (Line.entry name value).text.head? == some '%') = false := by
    rw [hhead]
    simp [hcomment, text_entry]
  rw [parseSolution, trim_entry h, hskipped, parseAssignment?_entry h]
  exact if_pos h.2

end Entry

/-! ## Blocks -/

theorem Line.IsProper.quiet {line : Line} (h : line.IsProper) : Quiet line.text := by
  cases line with
  | entry name value => exact quiet_entry h
  | remark text => exact IsRemark.quiet h

/-- The entries are read in their order, and the latest stands first. -/
theorem parseSolution_block {block : List Line} (h : ∀ line ∈ block, line.IsProper)
    (values : List (String × Int)) :
    parseSolution values (block.map Line.text) =
      .ok (((block.filterMap Line.entry?).map fun e => (e.1, e.2.number)).reverse ++ values) := by
  induction block generalizing values with
  | nil => rfl
  | cons line block ih =>
      obtain ⟨hline, hblock⟩ := List.forall_mem_cons.mp h
      cases line with
      | entry name value =>
          rw [List.map_cons, parseSolution_entry hline, ih hblock]
          simp [Line.entry?]
      | remark text =>
          rw [List.map_cons, Line.text, parseSolution_remark hline, ih hblock]
          rfl

theorem mem_entries_iff {block : List Line} {name : String} {value : Value} :
    (name, value) ∈ block.filterMap Line.entry? ↔ .entry name value ∈ block := by
  refine List.mem_filterMap.trans ⟨?_, fun h => ⟨_, h, rfl⟩⟩
  rintro ⟨_ | _, hline, hentry⟩
  · obtain ⟨rfl, rfl⟩ := Prod.mk.inj (Option.some.inj hentry)
    exact hline
  · cases hentry

/-- Where no name comes twice, an entry is found by its name. -/
theorem lookup_eq_some_iff_mem {β : Type} {entries : List (String × β)} {name : String} {v : β}
    (h : (entries.map Prod.fst).Nodup) : entries.lookup name = some v ↔ (name, v) ∈ entries := by
  rw [List.lookup_eq_some_iff]
  refine ⟨fun ⟨before, after, heq, _⟩ => heq ▸ by simp, fun hmem => ?_⟩
  obtain ⟨before, after, rfl⟩ := List.append_of_mem hmem
  refine ⟨before, after, rfl, fun e he => bne_iff_ne.mpr fun heq => ?_⟩
  rw [List.map_append, List.nodup_append] at h
  exact h.2.2 e.1 (List.mem_map_of_mem he) name (by simp) heq.symm

theorem Prints.lookup_eq {solution : Solution} {block : List Line} (h : Prints solution block)
    (name : String) :
    ((block.filterMap Line.entry?).map fun e => (e.1, e.2.number)).reverse.lookup name =
      (solution name).map Value.number := by
  have hnodup : (((block.filterMap Line.entry?).map fun e => (e.1, e.2.number)).reverse.map
      Prod.fst).Nodup := by
    rw [List.map_reverse, List.nodup_reverse, List.map_map]
    exact h.names_nodup
  refine Option.ext fun v => ?_
  rw [lookup_eq_some_iff_mem hnodup, List.mem_reverse, List.mem_map, Option.map_eq_some_iff]
  constructor
  · rintro ⟨⟨name', value⟩, hmem, heq⟩
    obtain ⟨rfl, rfl⟩ := Prod.mk.inj heq
    exact ⟨value, (h.mem_iff name' value).mpr (mem_entries_iff.mp hmem), rfl⟩
  · rintro ⟨value, hvalue, rfl⟩
    exact ⟨(name, value), mem_entries_iff.mpr ((h.mem_iff name value).mp hvalue), rfl⟩

/-- A solution that is given by its entries is printed by a line for each of them. -/
theorem prints_lookup {entries : List (String × Value)} {block : List Line}
    (hproper : ∀ line ∈ block, line.IsProper) (hnodup : (entries.map Prod.fst).Nodup)
    (hperm : (block.filterMap Line.entry?).Perm entries) :
    Prints (fun name => entries.lookup name) block := by
  refine ⟨hproper, (hperm.map Prod.fst).nodup_iff.mpr hnodup, fun name value => ?_⟩
  rw [lookup_eq_some_iff_mem hnodup, ← hperm.mem_iff, mem_entries_iff]

/-- A separator is found from the end of the text if there is none in later lines. -/
theorem splitLast?_unlines (before : List (List Char)) {after : List (List Char)}
    (hafter : ∀ l ∈ after, ¬ solutionSeparator.toList <:+: l) :
    splitLast? solutionSeparator.toList (unlines (before ++ solutionSeparator.toList :: after)) =
      some (unlines (before ++ [[]]), unlines ([] :: after)) := by
  have hne : solutionSeparator.toList ≠ [] := by decide
  have hnewline : '\n' ∉ solutionSeparator.toList := by decide
  have hshorter : solutionSeparator.toList.tail.length < solutionSeparator.toList.length := by
    decide
  generalize solutionSeparator.toList = separator at *
  rw [unlines_append]
  refine splitLast?_append hne fun hin => ?_
  rw [← unlines_cons] at hin
  obtain ⟨l, hl, hin⟩ := exists_infix_of_unlines hne hnewline hin
  rcases List.mem_cons.mp hl with rfl | hl
  · exact absurd hin.length_le (Nat.not_le_of_lt hshorter)
  · exact hafter l hl hin

/-- The lines before the last separator, from the separator before it on. -/
theorem lines_lastSolution (earlier : List (List Line)) {block : List Line}
    {after : List (List Char)} (hblock : ∀ line ∈ block, line.IsProper)
    (hafter : ∀ l ∈ after, ¬ solutionSeparator.toList <:+: l) :
    ∃ start, (start = [] ∨ start = [Line.remark []]) ∧
      lines (lastSolution (unlines
        (separated earlier ++ block.map Line.text ++ solutionSeparator.toList :: after))) =
          (start ++ block ++ [Line.remark []]).map Line.text := by
  have hquiet : ∀ l ∈ block.map Line.text ++ [[]],
      '\n' ∉ l ∧ ¬ solutionSeparator.toList <:+: l := by
    intro l hl
    rcases List.mem_append.mp hl with hl | hl
    · obtain ⟨line, hline, rfl⟩ := List.mem_map.mp hl
      exact ⟨(hblock line hline).quiet.no_newline, (hblock line hline).quiet.no_separator⟩
    · obtain rfl := List.mem_singleton.mp hl
      decide
  rw [lastSolution, splitLast?_unlines _ hafter]
  -- After an earlier solution the text begins with what its separator leaves of a line: nothing.
  rcases List.eq_nil_or_concat earlier with rfl | ⟨earlier, last, rfl⟩
  · refine ⟨[], .inl rfl, ?_⟩
    have hnone : splitLast? solutionSeparator.toList (unlines (block.map Line.text ++ [[]])) =
        none := splitLast?_of_not_infix fun hin => by
      obtain ⟨l, hl, hin⟩ := exists_infix_of_unlines (by decide) (by decide) hin
      exact (hquiet l hl).2 hin
    simp only [separated, List.flatMap_nil, List.nil_append, hnone]
    rw [lines_unlines (by simp) fun l hl => (hquiet l hl).1, List.map_append]
    rfl
  · refine ⟨[Line.remark []], .inr rfl, ?_⟩
    have hbefore : separated (earlier.concat last) ++ block.map Line.text ++ [[]] =
        (separated earlier ++ last.map Line.text)
          ++ solutionSeparator.toList :: (block.map Line.text ++ [[]]) := by
      simp [separated]
    simp only [hbefore, splitLast?_unlines _ fun l hl => (hquiet l hl).2]
    rw [lines_unlines (by simp) fun l hl => ?_]
    · simp [Line.text]
    · rcases List.mem_cons.mp hl with rfl | hl
      · exact List.not_mem_nil
      · exact (hquiet l hl).1

/-- The entries of the last block are read. -/
theorem parseSolution_lastSolution (earlier : List (List Line)) {block : List Line}
    {after : List (List Char)} (hblock : ∀ line ∈ block, line.IsProper)
    (hafter : ∀ l ∈ after, ¬ solutionSeparator.toList <:+: l) :
    parseSolution [] (lines (lastSolution (unlines
        (separated earlier ++ block.map Line.text ++ solutionSeparator.toList :: after)))) =
      .ok ((block.filterMap Line.entry?).map fun e => (e.1, e.2.number)).reverse := by
  obtain ⟨start, hstart, hlast⟩ := lines_lastSolution earlier hblock hafter
  have hremark : (Line.remark []).IsProper := .blank (by simp) (by simp)
  have hproper : ∀ line ∈ start ++ block ++ [Line.remark []], line.IsProper := by
    intro line hline
    rcases List.mem_append.mp hline with hline | hline
    · rcases List.mem_append.mp hline with hline | hline
      · rcases hstart with rfl | rfl
        · simp at hline
        · rwa [List.mem_singleton.mp hline]
      · exact hblock line hline
    · rwa [List.mem_singleton.mp hline]
  have hentries : (start ++ block ++ [Line.remark []]).filterMap Line.entry? =
      block.filterMap Line.entry? := by
    have hnone : [Line.remark []].filterMap Line.entry? = [] := rfl
    rcases hstart with rfl | rfl <;> simp only [List.filterMap_append, hnone,
      List.nil_append, List.append_nil]
  rw [hlast, parseSolution_block hproper, hentries, List.append_nil]

/-! ## Transcripts -/

namespace Transcript

variable {t : Transcript} {solutions : List Solution}

/-- The status that the transcript tells. -/
def status (t : Transcript) (optimising : Bool) : Status :=
  if t.ending.isNone then .satisfied else if optimising then .optimalSolution else .allSolutions

theorem Shows.proper (h : t.Shows solutions) :
    ∀ block ∈ t.blocks, ∀ line ∈ block, line.IsProper := by
  obtain ⟨hblocks, -, -⟩ := h
  generalize t.blocks = blocks at hblocks
  induction hblocks with
  | nil => simp
  | cons hblock _ ih => exact List.forall_mem_cons.mpr ⟨hblock.proper, ih⟩

/-- The last block prints the last solution. -/
theorem Shows.exists_last (h : t.Shows solutions) (hne : solutions ≠ []) :
    ∃ earlier block, t.blocks = earlier ++ [block] ∧ Prints (solutions.getLast hne) block := by
  obtain ⟨hblocks, -, -⟩ := h
  generalize t.blocks = blocks at hblocks
  induction hblocks with
  | nil => exact absurd rfl hne
  | @cons solution block solutions blocks hblock hrest ih =>
      cases hrest with
      | nil => exact ⟨[], block, rfl, hblock⟩
      | cons hsecond hrest =>
          obtain ⟨earlier, last, heq, hlast⟩ := ih (List.cons_ne_nil _ _)
          exact ⟨block :: earlier, last, by rw [heq]; rfl, by rwa [List.getLast_cons_cons]⟩

/-- Besides the line that says that the search is complete, only remarks come at the end. -/
theorem Shows.quiet_after (h : t.Shows solutions) {l : List Char} (hl : l ∈ t.after) :
    Quiet l ∨ l = searchComplete.toList ∧ t.ending.isSome := by
  rcases List.mem_append.mp hl with hl | hl
  · exact .inl (h.closing l hl).quiet
  · cases hending : t.ending with
    | none => simp [hending] at hl
    | some ls =>
        rw [hending] at hl
        rcases List.mem_cons.mp hl with rfl | hl
        · exact .inr ⟨rfl, rfl⟩
        · exact .inl (h.ending ls hending l hl).quiet

/-- Besides that line and the separators, all lines are entries and remarks. -/
theorem Shows.quiet_or (h : t.Shows solutions) {l : List Char} (hl : l ∈ t.lines) :
    Quiet l ∨ l = solutionSeparator.toList ∨ l = searchComplete.toList ∧ t.ending.isSome := by
  rcases List.mem_append.mp hl with hl | hl
  · obtain ⟨block, hblock, hl⟩ := List.mem_flatMap.mp hl
    rcases List.mem_append.mp hl with hl | hl
    · obtain ⟨line, hline, rfl⟩ := List.mem_map.mp hl
      exact .inl (h.proper block hblock line hline).quiet
    · exact .inr (.inl (List.mem_singleton.mp hl))
  · exact (h.quiet_after hl).imp_right .inr

theorem Shows.lines_text (h : t.Shows solutions) (hne : solutions ≠ []) :
    Text.lines t.text.toList = t.lines := by
  obtain ⟨earlier, block, hblocks, -⟩ := h.exists_last hne
  rw [Transcript.text, String.toList_ofList]
  refine lines_unlines (fun hnil => ?_) fun l hl => ?_
  · simp [Transcript.lines, separated, hblocks] at hnil
  · rcases h.quiet_or hl with hquiet | rfl | ⟨rfl, -⟩
    · exact hquiet.no_newline
    · decide
    · decide

theorem Shows.any_trim_eq_false (h : t.Shows solutions) {c : Char} (rest : List Char)
    (hc : c = '-' ∨ c = '=') (hseparator : c :: rest ≠ solutionSeparator.toList)
    (hcomplete : c :: rest = searchComplete.toList → t.ending = none) :
    (t.lines.any fun line => trim line == c :: rest) = false := by
  rw [List.any_eq_false]
  intro l hl heq
  rw [beq_iff_eq] at heq
  rcases h.quiet_or hl with hquiet | rfl | ⟨rfl, hsome⟩
  · have hmarker := hquiet.no_marker c (by rw [heq]; rfl)
    exact hc.elim hmarker.1 hmarker.2
  · exact hseparator heq.symm
  · rw [hcomplete heq.symm] at hsome
    exact Bool.false_ne_true hsome

theorem Shows.statusOf_eq (h : t.Shows solutions) (hne : solutions ≠ []) (stderr : List Char)
    (success optimising : Bool) :
    statusOf t.text.toList stderr success optimising = t.status optimising := by
  have herror := h.any_trim_eq_false "====ERROR=====".toList (.inr rfl) (by decide)
    fun heq => absurd heq (by decide)
  have hseparator : (t.lines.any fun line => trim line == solutionSeparator.toList) = true := by
    obtain ⟨earlier, block, hblocks, -⟩ := h.exists_last hne
    refine List.any_eq_true.mpr ⟨solutionSeparator.toList, ?_, by decide⟩
    simp [Transcript.lines, separated, hblocks]
  have hcomplete : (t.lines.any fun line => trim line == searchComplete.toList) =
      t.ending.isSome := by
    cases hending : t.ending with
    | none => exact h.any_trim_eq_false _ (.inr rfl) (by decide) fun _ => hending
    | some ls =>
        refine List.any_eq_true.mpr ⟨searchComplete.toList, ?_, by decide⟩
        simp [Transcript.lines, Transcript.after, hending]
  have hmarker : "=====ERROR=====".toList = '=' :: "====ERROR=====".toList := by decide
  rw [statusOf, h.lines_text hne]
  simp only [hmarker, herror, hseparator, hcomplete, Transcript.status]
  cases t.ending <;> simp

/-- Reading the values is all that can fail. -/
theorem exists_parseOutput {stdout stderr : String} {success optimising : Bool} {status : Status}
    {values : List (String × Int)}
    (hstatus : statusOf stdout.toList stderr.toList success optimising = status)
    (hsolution : status.hasSolution)
    (hvalues : parseSolution [] (Text.lines (lastSolution stdout.toList)) = .ok values) :
    ∃ output, parseOutput stdout stderr success optimising = .ok output ∧
      output.status = status ∧ output.values = values := by
  rw [parseOutput, hstatus, if_pos hsolution, hvalues]
  exact ⟨_, rfl, rfl, rfl⟩

/-- What is read in a transcript is the last of the solutions that it shows, and whether the
search was completed, whatever else the run says. -/
theorem parseOutput_of_shows (h : t.Shows solutions) (hne : solutions ≠ []) (stderr : String)
    (success optimising : Bool) :
    ∃ output, parseOutput t.text stderr success optimising = .ok output ∧
      output.status = t.status optimising ∧
      ∀ name, output.values.lookup name = (solutions.getLast hne name).map Value.number := by
  obtain ⟨earlier, block, hblocks, hprints⟩ := h.exists_last hne
  have hafter : ∀ l ∈ t.after, ¬ solutionSeparator.toList <:+: l := by
    intro l hl
    rcases h.quiet_after hl with hquiet | ⟨rfl, -⟩
    · exact hquiet.no_separator
    · exact fun hin => absurd (hin.mem (by decide : '-' ∈ _)) (by decide)
  have htext : t.text.toList = unlines
      (separated earlier ++ block.map Line.text ++ solutionSeparator.toList :: t.after) := by
    simp [Transcript.text, Transcript.lines, hblocks, separated]
  have hvalues := parseSolution_lastSolution earlier hprints.proper hafter
  rw [← htext] at hvalues
  have hsolution : (t.status optimising).hasSolution := by
    rw [Transcript.status]
    repeat' split
    all_goals rfl
  obtain ⟨output, houtput, hstatus, hread⟩ :=
    exists_parseOutput (h.statusOf_eq hne stderr.toList success optimising) hsolution hvalues
  exact ⟨output, houtput, hstatus, fun name => hread ▸ hprints.lookup_eq name⟩

/-- Two solutions, the second one with the least number of 64 bits, and the end of the search. -/
def twoSolutions : Transcript where
  blocks :=
    [[.remark ('%' :: " both are small".toList), .entry "x" (.int 1), .entry "y" (.bool true)],
      [.entry "y" (.bool false), .remark [], .entry "x" (.int (-9223372036854775808))]]
  closing := []
  ending := some [[]]

theorem parseOutput_of_shows_twoSolutions :
    ∃ output, parseOutput twoSolutions.text "" true true = .ok output ∧
      output.status = .optimalSolution ∧
      output.values.lookup "x" = some (-9223372036854775808) ∧
      output.values.lookup "y" = some 0 ∧ output.values.lookup "z" = none := by
  have hblank : IsRemark [] := .blank (by simp) (by simp)
  have hcomment : IsRemark ('%' :: " both are small".toList) :=
    @IsRemark.comment [] _ (by simp) (by decide) fun hin =>
      absurd (hin.mem (by decide : '-' ∈ _)) (by decide)
  have hfirst : Prints (fun name => [("x", Value.int 1), ("y", .bool true)].lookup name)
      [.remark ('%' :: " both are small".toList), .entry "x" (.int 1),
        .entry "y" (.bool true)] := by
    refine prints_lookup ?_ (by decide) (.refl _)
    simp only [List.forall_mem_cons]
    exact ⟨hcomment, ⟨by decide, by decide⟩, ⟨by decide, by decide⟩, by simp⟩
  have hsecond : Prints
      (fun name => [("x", Value.int (-9223372036854775808)), ("y", .bool false)].lookup name)
      [.entry "y" (.bool false), .remark [], .entry "x" (.int (-9223372036854775808))] := by
    refine prints_lookup ?_ (by decide) (List.Perm.swap _ _ _)
    simp only [List.forall_mem_cons]
    exact ⟨⟨by decide, by decide⟩, hblank, ⟨by decide, by decide⟩, by simp⟩
  have hshows : twoSolutions.Shows _ := ⟨.cons hfirst (.cons hsecond .nil), by simp [twoSolutions],
    by simp [twoSolutions, hblank]⟩
  obtain ⟨output, houtput, hstatus, hvalues⟩ :=
    parseOutput_of_shows hshows (List.cons_ne_nil _ _) "" true true
  exact ⟨output, houtput, hstatus, hvalues "x", hvalues "y", hvalues "z"⟩

end Transcript

end FiniteDomain.MiniZinc
