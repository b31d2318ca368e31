import FiniteDomain.Text.Blank
import FiniteDomain.Text.Digits

/-!
# Scanning a text

A chunk of a text ends where a character follows that does not belong to it. Decimal numerals are
read back as the numbers that they denote, lines are what stands between the newlines, and what
is looked for from the end is found where nothing of the kind comes later.
-/

namespace FiniteDomain.Text

/-! ## Chunks -/

/-- No character of the kind comes first. -/
def NoneAhead (kind : Char → Bool) (cs : List Char) : Prop := ∀ c ∈ cs.head?, kind c = false

variable {kind : Char → Bool} {chunk rest : List Char}

theorem noneAhead_nil : NoneAhead kind [] := fun _ h => by simp at h

theorem noneAhead_cons {c : Char} (h : kind c = false) : NoneAhead kind (c :: rest) := by
  simpa [NoneAhead] using h

theorem dropWhile_chunk (hchunk : ∀ c ∈ chunk, kind c) (hrest : NoneAhead kind rest) :
    (chunk ++ rest).dropWhile kind = rest := by
  rw [List.dropWhile_append_of_pos hchunk]
  cases rest with
  | nil => rfl
  | cons c rest => exact List.dropWhile_cons_of_neg (by simp [hrest c rfl])

theorem takeWhile_chunk (hchunk : ∀ c ∈ chunk, kind c) (hrest : NoneAhead kind rest) :
    (chunk ++ rest).takeWhile kind = chunk := by
  have hall := List.takeWhile_append_dropWhile (p := kind) (l := chunk ++ rest)
  rw [dropWhile_chunk hchunk hrest] at hall
  exact List.append_cancel_right hall

/-! ## Blanks around a text -/

theorem skipBlanks_of_noneAhead (h : NoneAhead isBlank rest) : skipBlanks rest = rest :=
  dropWhile_chunk (fun _ hc => absurd hc List.not_mem_nil) h

theorem skipBlanks_of_forall (h : ∀ c ∈ chunk, isBlank c) : skipBlanks chunk = [] := by
  have hskip := dropWhile_chunk h (noneAhead_nil : NoneAhead isBlank [])
  rwa [List.append_nil] at hskip

/-- A text without a blank at either end is trimmed already. -/
theorem trim_of_noneAhead (hfirst : NoneAhead isBlank rest)
    (hlast : NoneAhead isBlank rest.reverse) : trim rest = rest := by
  rw [trim, skipBlanks_of_noneAhead hfirst, skipBlanks_of_noneAhead hlast, List.reverse_reverse]

/-- The first character that is not blank stays in front. -/
theorem head?_trim {c : Char} (hchunk : ∀ c ∈ chunk, isBlank c) (hc : isBlank c = false) :
    (trim (chunk ++ c :: rest)).head? = some c := by
  have hskip : skipBlanks (chunk ++ c :: rest) = c :: rest :=
    dropWhile_chunk hchunk (noneAhead_cons hc)
  rw [trim, hskip, List.reverse_cons, skipBlanks, List.dropWhile_append]
  split
  · rw [List.dropWhile_cons_of_neg (by simp [hc])]
    rfl
  · rw [List.reverse_append]
    rfl

/-! ## Numerals -/

/-- The decimal digits of a number. -/
def numeral (n : Nat) : List Char := Nat.toDigits 10 n

/-- The decimal digits of an integer, after a sign if it is negative. -/
def signedNumeral (v : Int) : List Char :=
  if v < 0 then '-' :: numeral v.natAbs else numeral v.natAbs

theorem toList_toString_nat (n : Nat) : (toString n).toList = numeral n := by
  rw [Nat.toString_eq_ofList_toDigits, String.toList_ofList, numeral]

theorem toList_toString_int (v : Int) : (toString v).toList = signedNumeral v := by
  rw [signedNumeral]
  cases v with
  | ofNat n => exact toList_toString_nat n
  | negSucc n =>
      have htext : toString (Int.negSucc n) = "-" ++ toString (n + 1) := rfl
      rw [if_pos (Int.negSucc_lt_zero n), Int.natAbs_negSucc, htext, String.toList_append,
        toList_toString_nat]
      rfl

theorem isDigit_of_mem_numeral {n : Nat} {c : Char} (h : c ∈ numeral n) : c.isDigit :=
  Nat.isDigit_of_mem_toDigits (by omega) (by omega) h

theorem numeral_ne_nil (n : Nat) : numeral n ≠ [] := Nat.toDigits_ne_nil

theorem numberOf_numeral (n : Nat) : numberOf (numeral n) = n := Nat.ofDigitChars_ten_toDigits

theorem takeDigits?_numeral (n : Nat) (hrest : NoneAhead Char.isDigit rest) :
    takeDigits? (numeral n ++ rest) = some (numeral n, rest) := by
  have hdigits : ∀ c ∈ numeral n, c.isDigit := fun _ => isDigit_of_mem_numeral
  rw [takeDigits?, takeWhile_chunk hdigits hrest, dropWhile_chunk hdigits hrest]
  split
  · next h => exact absurd h (numeral_ne_nil n)
  · rfl

theorem natural?_numeral (n : Nat) : natural? (numeral n) = some n := by
  have htake := takeDigits?_numeral n (noneAhead_nil : NoneAhead Char.isDigit [])
  rw [List.append_nil] at htake
  rw [natural?, htake]
  exact congrArg some (numberOf_numeral n)

/-- A number has digits, and a minus sign. -/
theorem ne_of_mem_signedNumeral {v : Int} {c d : Char} (hdigit : d.isDigit = false) (hminus : d ≠ '-')
    (h : c ∈ signedNumeral v) : c ≠ d := by
  have hnumeral : ∀ c ∈ numeral v.natAbs, c ≠ d := by
    rintro c hc rfl
    exact Bool.false_ne_true (hdigit ▸ isDigit_of_mem_numeral hc)
  rw [signedNumeral] at h
  split at h
  · rcases List.mem_cons.mp h with rfl | h
    · exact hminus.symm
    · exact hnumeral c h
  · exact hnumeral c h

theorem signedNumeral_ne_nil (v : Int) : signedNumeral v ≠ [] := by
  rw [signedNumeral]
  split
  · exact List.cons_ne_nil _ _
  · exact numeral_ne_nil _

/-! ## Lines -/

theorem lines_eq_splitOn (cs : List Char) : lines cs = cs.splitOn '\n' := by
  induction cs with
  | nil => rfl
  | cons c cs ih =>
      rw [lines, ih, List.splitOn_cons_eq_if_modifyHead]
      by_cases hc : c = '\n'
      · rw [if_pos hc, if_pos (beq_iff_eq.mpr hc)]
      · rw [if_neg hc, if_neg (by simpa using hc)]
        cases hsplit : cs.splitOn '\n' with
        | nil => exact absurd hsplit (List.splitOn_ne_nil _ _)
        | cons line rest => rfl

/-- The text of lines with newlines between them. -/
def unlines (ls : List (List Char)) : List Char := ['\n'].intercalate ls

theorem lines_unlines {ls : List (List Char)} (hne : ls ≠ []) (hls : ∀ l ∈ ls, '\n' ∉ l) :
    lines (unlines ls) = ls := by
  rw [lines_eq_splitOn, unlines, List.splitOn_intercalate '\n' hls hne]

theorem unlines_cons_cons (l l' : List Char) (ls : List (List Char)) :
    unlines (l :: l' :: ls) = l ++ '\n' :: unlines (l' :: ls) := by
  rw [unlines, unlines, List.intercalate_cons_cons, List.append_assoc]
  rfl

theorem unlines_cons (l : List Char) (ls : List (List Char)) :
    unlines (l :: ls) = l ++ unlines ([] :: ls) := by
  cases ls with
  | nil => simp [unlines]
  | cons l' ls => rw [unlines_cons_cons, unlines_cons_cons]; rfl

/-- The text before a line, the line and the text after it. -/
theorem unlines_append (before : List (List Char)) (l : List Char) (after : List (List Char)) :
    unlines (before ++ l :: after) = unlines (before ++ [[]]) ++ l ++ unlines ([] :: after) := by
  induction before with
  | nil => exact unlines_cons l after
  | cons first before ih =>
      cases before with
      | nil =>
          rw [List.singleton_append, unlines_cons_cons, unlines_cons l after, List.singleton_append,
            unlines_cons_cons]
          simp [unlines]
      | cons second before =>
          simp only [List.cons_append, unlines_cons_cons, List.append_assoc] at ih ⊢
          rw [ih]

/-! ## The last occurrence -/

variable {pattern before after cs : List Char}

theorem dropStart?_append (start cs : List Char) : dropStart? start (start ++ cs) = some cs := by
  induction start with
  | nil => cases cs <;> rfl
  | cons p start ih => rw [List.cons_append, dropStart?, if_pos rfl, ih]

theorem dropStart?_eq_some_iff {start rest : List Char} :
    dropStart? start cs = some rest ↔ cs = start ++ rest := by
  refine ⟨fun h => ?_, fun h => h ▸ dropStart?_append start rest⟩
  induction start generalizing cs with
  | nil => cases cs <;> simpa [dropStart?] using h
  | cons p start ih =>
      cases cs with
      | nil => simp [dropStart?] at h
      | cons c cs =>
          rw [dropStart?] at h
          split at h
          · next hc => rw [List.cons_append, ← ih h, hc]
          · simp at h

theorem dropStart?_of_not_infix (h : ¬ pattern <:+: cs) : dropStart? pattern cs = none := by
  rw [Option.eq_none_iff_forall_not_mem]
  intro rest hrest
  exact h (dropStart?_eq_some_iff.mp hrest ▸ (List.prefix_append pattern rest).isInfix)

theorem splitLast?_of_not_infix (h : ¬ pattern <:+: cs) : splitLast? pattern cs = none := by
  induction cs with
  | nil => rw [splitLast?, dropStart?_of_not_infix h]; rfl
  | cons c cs ih =>
      rw [splitLast?, ih fun hrest => h (List.infix_cons hrest), dropStart?_of_not_infix h]
      rfl

/-- The occurrence after which there is none is found. -/
theorem splitLast?_append (hne : pattern ≠ []) (h : ¬ pattern <:+: pattern.tail ++ after) :
    splitLast? pattern (before ++ pattern ++ after) = some (before, after) := by
  induction before with
  | nil =>
      have hstart := dropStart?_append pattern after
      obtain ⟨c, rest, rfl⟩ := List.exists_cons_of_ne_nil hne
      rw [List.cons_append] at hstart
      rw [List.tail_cons] at h
      rw [List.nil_append, List.cons_append, splitLast?, splitLast?_of_not_infix h, hstart]
      rfl
  | cons b before ih =>
      rw [List.cons_append, List.cons_append, splitLast?, ih]

/-- A pattern does not reach over a character that is not in it. -/
theorem infix_of_infix_append {c : Char} (hc : c ∉ pattern)
    (h : pattern <:+: before ++ c :: after) : pattern <:+: before ∨ pattern <:+: after := by
  have hempty : ∀ start, c ∉ start → start <+: c :: after → start = [] := fun start hstart h =>
    (List.prefix_cons_iff.mp h).resolve_right fun ⟨_, heq, _⟩ =>
      hstart (heq ▸ List.mem_cons_self)
  rcases List.infix_append_iff.mp h with h | h | ⟨start, rest, rfl, hstart, hrest⟩
  · exact .inl h
  · rcases List.infix_cons_iff.mp h with h | h
    · exact .inl (hempty pattern hc h ▸ List.nil_infix)
    · exact .inr h
  · have hnil := hempty rest (fun hmem => hc (List.mem_append_right start hmem)) hrest
    rw [hnil, List.append_nil]
    exact .inl hstart.isInfix

theorem exists_infix_of_unlines {ls : List (List Char)} (hne : pattern ≠ [])
    (hpattern : '\n' ∉ pattern) (h : pattern <:+: unlines ls) : ∃ l ∈ ls, pattern <:+: l := by
  induction ls with
  | nil => exact absurd (List.infix_nil.mp h) hne
  | cons l ls ih =>
      cases ls with
      | nil => exact ⟨l, by simp, by simpa [unlines] using h⟩
      | cons l' ls =>
          rw [unlines_cons_cons] at h
          rcases infix_of_infix_append hpattern h with h | h
          · exact ⟨l, by simp, h⟩
          · obtain ⟨line, hline, h⟩ := ih h
            exact ⟨line, List.mem_cons_of_mem l hline, h⟩

end FiniteDomain.Text
