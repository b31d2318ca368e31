import FiniteDomain.Proofs.Constraint.Evaluation
import FiniteDomain.Proofs.MiniZinc.Phrases
import FiniteDomain.Proofs.MiniZinc.Writing

/-!
# What phrases mean

A phrase has a value or a truth value, given what its words mean. The text of an expression is a
phrase with the value of the expression, and the text of a constraint one with its truth value.
-/

namespace FiniteDomain.MiniZinc

open Text

/-- What words mean as numbers. -/
abbrev Lexicon := List Char → Option Int

/-- All results, if there are no others. -/
def allOf {α : Type} : List (Option α) → Option (List α)
  | [] => some []
  | a? :: rest => a?.bind fun a => (allOf rest).map (a :: ·)

theorem allOf_map_some {α : Type} (as : List α) : allOf (as.map some) = some as := by
  induction as with
  | nil => rfl
  | cons a as ih => rw [List.map_cons, allOf, ih]; rfl

/-- The number that an operator makes of two numbers. -/
def Symbol.compute : Symbol → Int → Int → Option Int
  | plus, a, b => some (a + b)
  | operation op, a, b => op.apply a b
  | times, a, b => some (a * b)
  | shift, a, b => some (a + b)
  | _, _, _ => none

/-- What a connective or a relation says of two operands, by their truth values or their values. -/
def Symbol.judge (symbol : Symbol) (p q : Option Bool) (a b : Option Int) : Option Bool :=
  match symbol with
  | connective kind => p.bind fun p => q.map fun q => kind.apply [p, q]
  | implies => p.bind fun p => if p then q else some true
  | comparison comparator => a.bind fun a => b.map fun b => comparator.compare a b
  | _ => none

/-- The number that a function makes of its arguments. -/
def Callee.compute (f : Callee) (values : List (Option Int)) : Option Int :=
  match f with
  | sum => (allOf values).map List.sum
  | _ => none

/-- What a function says of its arguments, by their truth values, their values or their values as
nodes. -/
def Callee.judge (f : Callee) (truths : List (Option Bool)) (values nodes : List (Option Int)) :
    Option Bool :=
  match f with
  | sum => none
  | connective kind => (allOf truths).map kind.apply
  | allDifferent => (allOf values).map fun vs => decide vs.Nodup
  | allEqual => (allOf values).map allSame
  | circuit => (allOf nodes).map fun vs => isSingleCycle vs fun _ => true
  | subcircuit => (allOf nodes).map fun vs => isSingleCycle vs fun node => vs.getD node 0 != node

namespace Phrase

variable (ρ : Lexicon)

mutual

/-- The value of a phrase. -/
def value : {shape : Shape} → Phrase shape → Option Int
  | _, word w => ρ w.chars
  | _, minus o => (value o).map (- ·)
  | _, group p => value p
  | _, plain o => value o
  | _, binary symbol l r => (value l).bind fun a => (value r).bind fun b => symbol.compute a b
  | _, negation w => (ρ w.chars).map (1 - ·)
  | _, call f items => f.compute (values items)
  | _, magnitude p => (value p).map fun v => (v.natAbs : Int)
  | _, table _ _ => none
  | _, lookup _ items index =>
    (value index).bind fun i => if i < 0 then none else (values items)[i.toNat]?.join

/-- The values of phrases. -/
def values : List (Phrase .whole) → List (Option Int)
  | [] => []
  | p :: ps => value p :: values ps

end

/-- The value as a node of a circuit, numbered from 0. -/
def node : {shape : Shape} → Phrase shape → Option Int
  | _, binary .shift o _ => value ρ o
  | _, p => value ρ p

mutual

/-- The truth value of a phrase. -/
def truth : {shape : Shape} → Phrase shape → Option Bool
  | _, word w => (ρ w.chars).map (· != 0)
  | _, minus _ => none
  | _, group p => truth p
  | _, plain o => truth o
  | _, binary symbol l r => symbol.judge (truth l) (truth r) (value ρ l) (value ρ r)
  | _, negation w => (ρ w.chars).map (1 - · != 0)
  | _, call f items => f.judge (truths items) (values ρ items) (items.map (node ρ))
  | _, magnitude _ => none
  | _, table columns rows => (allOf (values ρ columns)).map fun vs => rows.any (· == vs)
  | _, lookup _ _ _ => none

/-- The truth values of phrases. -/
def truths : List (Phrase .whole) → List (Option Bool)
  | [] => []
  | p :: ps => truth p :: truths ps

end

/-! A group means what is in it; the other kinds of phrases have an equation each. -/

theorem value_word (w : Word) : (word w).value ρ = ρ w.chars := rfl

theorem value_minus (o : Phrase .operand) : (minus o).value ρ = (o.value ρ).map (- ·) := rfl

theorem value_plain (o : Phrase .operand) : (plain o).value ρ = o.value ρ := rfl

theorem value_binary (symbol : Symbol) (l r : Phrase .operand) :
    (binary symbol l r).value ρ =
      (l.value ρ).bind fun a => (r.value ρ).bind fun b => symbol.compute a b := rfl

theorem value_negation (w : Word) : (negation w).value ρ = (ρ w.chars).map (1 - ·) := rfl

theorem values_eq (ps : List (Phrase .whole)) : values ρ ps = ps.map (value ρ) := by
  induction ps with
  | nil => rfl
  | cons p ps ih => exact congrArg (p.value ρ :: ·) ih

theorem value_call (f : Callee) (items : List (Phrase .whole)) :
    (call f items).value ρ = f.compute (items.map (value ρ)) := by
  rw [← values_eq]
  rfl

theorem value_magnitude (p : Phrase .whole) :
    (magnitude p).value ρ = (p.value ρ).map fun v => (v.natAbs : Int) := rfl

theorem value_lookup (isBool : Bool) (items : List (Phrase .whole)) (index : Phrase .whole) :
    (lookup isBool items index).value ρ = (index.value ρ).bind fun i =>
      if i < 0 then none else (items.map (value ρ))[i.toNat]?.join := by
  rw [← values_eq]
  rfl

theorem truth_word (w : Word) : (word w).truth ρ = (ρ w.chars).map (· != 0) := rfl

theorem truth_plain (o : Phrase .operand) : (plain o).truth ρ = o.truth ρ := rfl

theorem truth_binary (symbol : Symbol) (l r : Phrase .operand) :
    (binary symbol l r).truth ρ =
      symbol.judge (l.truth ρ) (r.truth ρ) (l.value ρ) (r.value ρ) := rfl

theorem truth_negation (w : Word) : (negation w).truth ρ = (ρ w.chars).map (1 - · != 0) := rfl

theorem truths_eq (ps : List (Phrase .whole)) : truths ρ ps = ps.map (truth ρ) := by
  induction ps with
  | nil => rfl
  | cons p ps ih => exact congrArg (p.truth ρ :: ·) ih

theorem truth_call (f : Callee) (items : List (Phrase .whole)) :
    (call f items).truth ρ =
      f.judge (items.map (truth ρ)) (items.map (value ρ)) (items.map (node ρ)) := by
  rw [← truths_eq, ← values_eq]
  rfl

theorem truth_table (columns : List (Phrase .whole)) (rows : List (List Int)) :
    (table columns rows).truth ρ =
      (allOf (columns.map (value ρ))).map fun vs => rows.any (· == vs) := by
  rw [← values_eq]
  rfl

end Phrase

/-! ## Words -/

/-- The keywords that are words of phrases themselves. -/
def reserved : List (List Char) := ["true".toList, "false".toList, "not".toList]

/-- An identifier that is no keyword; of the keywords only these matter. -/
def IsName (cs : List Char) : Prop := IsIdentifier cs ∧ cs ∉ reserved

instance (cs : List Char) : Decidable (IsName cs) := inferInstanceAs (Decidable (_ ∧ _))

theorem IsName.ne {cs keyword : List Char} (h : IsName cs) (hkeyword : keyword ∈ reserved) :
    cs ≠ keyword := fun heq => h.2 (heq ▸ hkeyword)

/-- A name as a word. -/
def IsName.word {cs : List Char} (h : IsName cs) : Word where
  chars := cs
  ne_nil := by
    obtain ⟨c, rest, rfl, -⟩ := h.1.exists_cons
    exact List.cons_ne_nil c rest
  isIdentRest := h.1.2
  ne_not := h.ne (by simp [reserved])

/-- A numeral as a word. -/
def numeralWord (n : Nat) : Word where
  chars := numeral n
  ne_nil := numeral_ne_nil n
  isIdentRest _ hc := isIdentRest_of_isDigit (isDigit_of_mem_numeral hc)
  ne_not h := by
    have hmem : 'n' ∈ numeral n := h ▸ by decide
    exact absurd (isDigit_of_mem_numeral hmem) (by decide)

/-- A truth value as a word. -/
def boolWord (b : Bool) : Word where
  chars := (toString b).toList
  ne_nil := by cases b <;> decide
  isIdentRest := List.all_eq_true.mp (by cases b <;> decide)
  ne_not := by cases b <;> decide

/-- A number as an operand. -/
def number (v : Int) : Phrase .operand :=
  if v < 0 then .minus (.word (numeralWord v.natAbs)) else .word (numeralWord v.natAbs)

theorem chars_number (v : Int) : (number v).chars = signedNumeral v := by
  rw [number, signedNumeral]
  split <;> rfl

/-- What words mean where the names of variables are known: numerals are numbers, truth values are
0 and 1, and a name means the value of its variable. -/
def lexicon (owner : List Char → Option VarId) (σ : Assignment) : Lexicon := fun cs =>
  match natural? cs with
  | some n => some n
  | none =>
    if cs = "true".toList then some 1
    else if cs = "false".toList then some 0
    else (owner cs).bind σ

section Lexicon

variable {owner : List Char → Option VarId} {σ : Assignment}

theorem lexicon_numeral (n : Nat) : lexicon owner σ (numeral n) = some (n : Int) := by
  rw [lexicon, natural?_numeral]

theorem lexicon_bool (b : Bool) : lexicon owner σ (boolWord b).chars = some b.toInt := by
  cases b <;> rfl

theorem natural?_of_isIdentifier {cs : List Char} (h : IsIdentifier cs) : natural? cs = none := by
  obtain ⟨c, rest, rfl, hstart, -⟩ := h.exists_cons
  have hdigit := isDigit_eq_false_of_isIdentStart hstart
  rw [natural?, takeDigits?, List.takeWhile_cons_of_neg (by simp [hdigit])]

theorem lexicon_name {cs : List Char} (h : IsName cs) {id : VarId} (howner : owner cs = some id) :
    lexicon owner σ cs = σ id := by
  rw [lexicon, natural?_of_isIdentifier h.1]
  simp only [h.ne (by simp [reserved] : "true".toList ∈ reserved),
    h.ne (by simp [reserved] : "false".toList ∈ reserved), if_false, howner, Option.bind_some]

theorem value_number (v : Int) : (number v).value (lexicon owner σ) = some v := by
  rw [number]
  split
  · rw [Phrase.value_minus, Phrase.value_word, numeralWord, lexicon_numeral, Option.map_some]
    congr 1
    omega
  · rw [Phrase.value_word, numeralWord, lexicon_numeral]
    congr 1
    omega

end Lexicon

end FiniteDomain.MiniZinc
