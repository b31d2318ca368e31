import FiniteDomain.MiniZinc.Output
import FiniteDomain.Proofs.Text.Scanning

/-!
# Identifiers

An identifier begins with a letter or an underscore and goes on with letters, digits and
underscores; where another character follows, it ends.
-/

namespace FiniteDomain.MiniZinc

open Text

/-- The text is an identifier. -/
def IsIdentifier (cs : List Char) : Prop :=
  (∃ c ∈ cs.head?, isIdentStart c) ∧ ∀ c ∈ cs, isIdentRest c

instance (cs : List Char) : Decidable (IsIdentifier cs) :=
  decidable_of_iff (cs.head?.any isIdentStart ∧ cs.all isIdentRest) <| by
    rw [IsIdentifier, Option.any_eq_true, List.all_eq_true]
    rfl

theorem isIdentRest_of_isDigit {c : Char} (h : c.isDigit) : isIdentRest c := by
  simp [isIdentRest, Char.isAlphanum, h]

theorem isIdentRest_of_isIdentStart {c : Char} (h : isIdentStart c) : isIdentRest c := by
  rw [isIdentStart, Bool.or_eq_true] at h
  rcases h with h | h <;> simp [isIdentRest, Char.isAlphanum, h]

theorem code_of_isAlpha {c : Char} (h : c.isAlpha) :
    (65 ≤ c.toNat ∧ c.toNat ≤ 90) ∨ (97 ≤ c.toNat ∧ c.toNat ≤ 122) := by
  rcases (Bool.or_eq_true _ _).mp h with hupper | hlower
  · obtain ⟨hle, hle'⟩ := of_decide_eq_true hupper
    exact .inl ⟨UInt32.le_iff_toNat_le.mp hle, UInt32.le_iff_toNat_le.mp hle'⟩
  · obtain ⟨hle, hle'⟩ := (Bool.and_eq_true _ _).mp hlower
    exact .inr ⟨UInt32.le_iff_toNat_le.mp (of_decide_eq_true hle),
      UInt32.le_iff_toNat_le.mp (of_decide_eq_true hle')⟩

theorem code_of_isDigit {c : Char} (h : c.isDigit) : 48 ≤ c.toNat ∧ c.toNat ≤ 57 := by
  obtain ⟨hle, hle'⟩ := (Bool.and_eq_true _ _).mp h
  exact ⟨UInt32.le_iff_toNat_le.mp (of_decide_eq_true hle),
    UInt32.le_iff_toNat_le.mp (of_decide_eq_true hle')⟩

/-- Letters, digits and underscores are no blanks. -/
theorem isBlank_eq_false_of_isIdentRest {c : Char} (h : isIdentRest c) : isBlank c = false := by
  rw [isIdentRest, Char.isAlphanum, Bool.or_eq_true, Bool.or_eq_true, beq_iff_eq] at h
  have hrange : 48 ≤ c.toNat ∧ c.toNat ≤ 122 := by
    rcases h with (h | h) | rfl
    · have hcode := code_of_isAlpha h
      omega
    · have hcode := code_of_isDigit h
      omega
    · decide
  simp only [isBlank, Bool.or_eq_false_iff, Bool.and_eq_false_iff, decide_eq_false_iff_not,
    beq_eq_false_iff_ne]
  omega

/-- No identifier begins with a digit. -/
theorem isDigit_eq_false_of_isIdentStart {c : Char} (h : isIdentStart c) : c.isDigit = false := by
  rw [isIdentStart, Bool.or_eq_true, beq_iff_eq] at h
  refine Bool.eq_false_iff.mpr fun hdigit => ?_
  have hcode := code_of_isDigit hdigit
  rcases h with h | rfl
  · have hcode' := code_of_isAlpha h
    omega
  · exact absurd hdigit (by decide)

namespace IsIdentifier

variable {cs : List Char}

/-- The first character, and the others. -/
theorem exists_cons (h : IsIdentifier cs) :
    ∃ c rest, cs = c :: rest ∧ isIdentStart c ∧ isIdentRest c := by
  obtain ⟨⟨c, hc, hstart⟩, hall⟩ := h
  cases cs with
  | nil => simp at hc
  | cons first rest =>
      obtain rfl : first = c := by simpa using hc
      exact ⟨first, rest, rfl, hstart, hall first List.mem_cons_self⟩

/-- A character that continues no identifier is not in it. -/
theorem not_mem (h : IsIdentifier cs) {c : Char} (hc : isIdentRest c = false) : c ∉ cs :=
  fun hmem => Bool.false_ne_true (hc ▸ h.2 c hmem)

/-- An identifier goes on with what can continue it. -/
theorem append (h : IsIdentifier cs) {rest : List Char} (hrest : ∀ c ∈ rest, isIdentRest c) :
    IsIdentifier (cs ++ rest) := by
  obtain ⟨c, tail, rfl, hstart, -⟩ := h.exists_cons
  exact ⟨⟨c, rfl, hstart⟩, List.forall_mem_append.mpr ⟨h.2, hrest⟩⟩

/-- The beginning of an identifier is one. -/
theorem of_append {rest : List Char} (h : IsIdentifier (cs ++ rest)) (hne : cs ≠ []) :
    IsIdentifier cs := by
  obtain ⟨c, tail, rfl⟩ := List.exists_cons_of_ne_nil hne
  exact ⟨h.1, (List.forall_mem_append.mp h.2).1⟩

end IsIdentifier

theorem isIdentifier_cons_iff {c : Char} {cs : List Char} :
    IsIdentifier (c :: cs) ↔ isIdentStart c ∧ ∀ d ∈ cs, isIdentRest d := by
  simp only [IsIdentifier, List.head?_cons, Option.mem_some_iff, exists_eq_left',
    List.forall_mem_cons]
  exact and_congr_right fun h => and_iff_right (isIdentRest_of_isIdentStart h)

end FiniteDomain.MiniZinc
