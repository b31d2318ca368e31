import FiniteDomain.Constraint.Decomposition
import FiniteDomain.Proofs.Constraint.Encoding

/-!
# Which constraints can be lowered

Whether a constraint can be turned into propagators is a matter of its syntax. A disjunct that is
no atom is put behind a selector, so it has to be conditional: what is named to enforce it must
not constrain the model when the selector is false.

Two properties of all expressions of a constraint matter besides: a weighted sum needs one weight
for every term, and numbers and lists have to be of a size that can be counted.
-/

namespace FiniteDomain

namespace Expr

/-- There is one weight for every term. -/
def HasWeights : Expr → Prop
  | weightedSum weights terms => weights.length = terms.length
  | _ => True

/-- Numbers have 64 bits, and there are fewer than `2 ^ 31` terms or items. -/
def IsSized : Expr → Prop
  | atom (.constant value) => word64.Fits value
  | sum terms => terms.length < 2 ^ 31
  | weightedSum weights terms => (∀ w ∈ weights, word64.Fits w) ∧ terms.length < 2 ^ 31
  | element array _ => array.length < 2 ^ 31
  | _ => True

theorem isDefinableAnywhere_iff {e : Expr} : e.isDefinableAnywhere = true ↔ e.isAtom = true ∨
    e.isTotal = true ∧ word32.Fits e.bounds.lower ∧ word32.Fits e.bounds.upper := by
  simp [isDefinableAnywhere, and_assoc]

end Expr

/-- The numbers of a table have 64 bits, and there are fewer than `2 ^ 31` arguments. -/
def Global.IsSized (g : Global) : Prop :=
  g.args.length < 2 ^ 31 ∧ ∀ row ∈ g.rows, ∀ v ∈ row, word64.Fits v

namespace Constraint

variable {c : Constraint} {cs : List Constraint} {P : Expr → Prop} {Q : Global → Prop}

mutual

/-- All expressions of the constraint have the first property, and all constraints over many
expressions the second. -/
def Everywhere (P : Expr → Prop) (Q : Global → Prop) : Constraint → Prop
  | connective _ args => EverywhereIn P Q args
  | implication a c => a.Everywhere P Q ∧ c.Everywhere P Q
  | comparison _ lhs rhs => lhs.Everywhere P ∧ rhs.Everywhere P
  | global g => Q g ∧ ∀ e ∈ g.args, e.Everywhere P
  | _ => True

/-- The same for all constraints of a list. -/
def EverywhereIn (P : Expr → Prop) (Q : Global → Prop) : List Constraint → Prop
  | [] => True
  | c :: cs => c.Everywhere P Q ∧ EverywhereIn P Q cs

end

theorem everywhereIn_iff : EverywhereIn P Q cs ↔ ∀ c ∈ cs, c.Everywhere P Q := by
  induction cs with
  | nil => simp [EverywhereIn]
  | cons c cs ih => simp [EverywhereIn, ih]

theorem everywhere_of_isAtom (hc : c.isAtom = true) : c.Everywhere P Q := by
  cases c with
  | literal l => trivial
  | constant value => trivial
  | _ => cases hc

theorem Everywhere.mono {P' : Expr → Prop} {Q' : Global → Prop} (h : c.Everywhere P Q)
    (hP : ∀ o, P o → P' o) (hQ : ∀ g, Q g → Q' g) : c.Everywhere P' Q' := by
  induction c using Constraint.induction with
  | literal l => trivial
  | constant value => trivial
  | connective kind args ih =>
      exact everywhereIn_iff.mpr fun d hd => ih d hd (everywhereIn_iff.mp h d hd)
  | implication a d iha ihd => exact ⟨iha h.1, ihd h.2⟩
  | comparison comparator lhs rhs => exact ⟨h.1.mono hP, h.2.mono hP⟩
  | global g => exact ⟨hQ g h.1, fun e he => (h.2 e he).mono hP⟩

/-- The weighted sums have one weight per term. -/
def Balanced (c : Constraint) : Prop := c.Everywhere Expr.HasWeights fun _ => True

/-- Numbers have 64 bits, and there are fewer than `2 ^ 31` arguments. -/
def Sized (c : Constraint) : Prop := c.Everywhere Expr.IsSized Global.IsSized

/-- The constraint can be put behind a selector. -/
inductive Conditional : Constraint → Prop
  | reifiable {c : Constraint} : c.isReifiable = true → Conditional c
  | conjunction {args : List Constraint} :
      (∀ c ∈ args, c.isAtom = false → Conditional c) → Conditional (connective .and args)
  | disjunction {args : List Constraint} :
      (∀ c ∈ args, c.isAtom = false → Conditional c) → Conditional (connective .or args)
  | implication {a c : Constraint} : a.isAtom = true → Conditional c →
      Conditional (implication a c)
  | comparison {comparator : Comparator} {lhs rhs : Expr} :
      (∀ e ∈ [lhs, rhs], e.isAtom = true ∨
        e.isTotal = true ∧ word32.Fits e.bounds.lower ∧ word32.Fits e.bounds.upper) →
      Conditional (comparison comparator lhs rhs)

/-- The constraint can be lowered. -/
inductive Accepted : Constraint → Prop
  | atom {c : Constraint} : c.isAtom = true → Accepted c
  | comparison (comparator : Comparator) (lhs rhs : Expr) : Accepted (comparison comparator lhs rhs)
  | global {g : Global} : (∀ successors, g ≠ .subcircuit successors) → Accepted (global g)
  | connective {kind : Connective} {args : List Constraint} :
      (∀ c ∈ args, c.isAtom = true) → Accepted (connective kind args)
  | conjunction {args : List Constraint} : (∀ c ∈ args, Accepted c) →
      Accepted (connective .and args)
  | implication {a c : Constraint} : a.isAtom = true → c.isReifiable = true →
      Accepted (implication a c)
  | disjunction {args : List Constraint} :
      (∀ c ∈ args, c.isAtom = false → Conditional c) → Accepted (connective .or args)

theorem Conditional.of_isAtom (hc : c.isAtom = true) : c.Conditional := by
  cases c with
  | literal l => exact .reifiable rfl
  | constant value => exact .reifiable rfl
  | _ => cases hc

theorem Conditional.of_nested (h : c.isAtom = false → c.Conditional) : c.Conditional := by
  by_cases hatom : c.isAtom = true
  · exact .of_isAtom hatom
  · exact h (by simpa using hatom)

theorem conditional_and_iff : (connective .and cs).Conditional ↔ ∀ c ∈ cs, c.Conditional := by
  constructor
  · rintro (h | h | h | h | h) c hc
    · exact .of_isAtom (List.all_eq_true.mp h c hc)
    · exact .of_nested (h c hc)
  · exact fun h => .conjunction fun c hc _ => h c hc

theorem conditional_or_iff : (connective .or cs).Conditional ↔ ∀ c ∈ cs, c.Conditional := by
  constructor
  · rintro (h | h | h | h | h) c hc
    · exact .of_isAtom (List.all_eq_true.mp h c hc)
    · exact .of_nested (h c hc)
  · exact fun h => .disjunction fun c hc _ => h c hc

theorem conditional_implication_iff {a : Constraint} :
    (implication a c).Conditional ↔ a.isAtom = true ∧ c.Conditional := by
  constructor
  · rintro (h | h | h | ⟨ha, hc⟩ | h)
    · obtain ⟨ha, hc⟩ := Bool.and_eq_true_iff.mp h
      exact ⟨ha, .of_isAtom hc⟩
    · exact ⟨ha, hc⟩
  · exact fun h => .implication h.1 h.2

theorem conditional_comparison_iff {comparator : Comparator} {lhs rhs : Expr} :
    (comparison comparator lhs rhs).Conditional ↔
      lhs.isDefinableAnywhere = true ∧ rhs.isDefinableAnywhere = true := by
  simp only [Expr.isDefinableAnywhere_iff]
  constructor
  · rintro (h | h | h | h | h)
    · obtain ⟨hl, hr⟩ := Bool.and_eq_true_iff.mp h
      exact ⟨.inl hl, .inl hr⟩
    · exact ⟨h lhs (by simp), h rhs (by simp)⟩
  · rintro ⟨hl, hr⟩
    exact .comparison (by simp [hl, hr])

theorem not_conditional_xor (h : cs.all isAtom = false) : ¬ (connective .xor cs).Conditional := by
  rintro (hreifiable | _ | _ | _ | _)
  exact absurd (hreifiable.symm.trans h) (by simp)

theorem not_conditional_global (g : Global) : ¬ (global g).Conditional := by
  rintro (hreifiable | _ | _ | _ | _)
  cases hreifiable

theorem accepted_and_iff : (connective .and cs).Accepted ↔ ∀ c ∈ cs, c.Accepted := by
  constructor
  · rintro (h | _ | _ | h | h | _ | _) c hc
    · cases h
    · exact .atom (h c hc)
    · exact h c hc
  · exact fun h => .conjunction h

theorem accepted_or_iff : (connective .or cs).Accepted ↔ ∀ c ∈ cs, c.Conditional := by
  constructor
  · rintro (h | _ | _ | h | _ | _ | h) c hc
    · cases h
    · exact .of_isAtom (h c hc)
    · exact .of_nested (h c hc)
  · exact fun h => .disjunction fun c hc _ => h c hc

theorem not_accepted_xor (h : cs.all isAtom = false) : ¬ (connective .xor cs).Accepted := by
  rintro (hatom | _ | _ | hatoms | _ | _ | _)
  · cases hatom
  · exact absurd (List.all_eq_true.mpr hatoms) (by simp [h])

theorem accepted_implication_iff {a : Constraint} :
    (implication a c).Accepted ↔ a.isAtom = true ∧ c.isReifiable = true := by
  constructor
  · rintro (h | _ | _ | _ | _ | ⟨ha, hc⟩ | _)
    · cases h
    · exact ⟨ha, hc⟩
  · exact fun h => .implication h.1 h.2

theorem not_accepted_subcircuit (successors : List Expr) :
    ¬ (global (.subcircuit successors)).Accepted := by
  rintro (h | _ | h | _ | _ | _ | _)
  · cases h
  · exact h _ rfl

end Constraint

end FiniteDomain
