import FiniteDomain.Engine.Basic

/-!
# What propagators mean

A valuation gives every variable of the engine a value. It gives every view a value, and a
rule holds under it or not; none of this refers to propagation. A store admits a valuation
whose values are all still possible.
-/

namespace FiniteDomain.Engine

/-- A value for every variable. -/
abbrev Valuation := VarIndex → Int

/-- The value of a view over the integers. -/
def View.eval (a : Valuation) : View → Int
  | .constant c => c
  | .affine x negated offset => if negated then offset - a x else offset + a x

/-- The sum of the terms over the integers. -/
def Linear.sum (a : Valuation) : List Linear.Term → Int
  | [] => 0
  | (coefficient, v) :: terms => coefficient * v.eval a + sum a terms

namespace Rule

/-- The constraint that a rule enforces. As a Boolean a view is true if it is not zero. -/
def Holds (a : Valuation) : Rule → Prop
  | conjunction literals => ∀ v ∈ literals, v.eval a ≠ 0
  | disjunction literals => ∃ v ∈ literals, v.eval a ≠ 0
  | parity literals => (literals.countP fun v => v.eval a != 0) % 2 = 1
  | equal v w => v.eval a = w.eval a
  | notEqual v w => v.eval a ≠ w.eval a
  | less v w true => v.eval a ≤ w.eval a
  | less v w false => v.eval a < w.eval a
  | linear terms rhs => Linear.sum a terms = rhs
  | allDifferent views => (views.map (View.eval a)).Nodup
  | absolute v w => w.eval a = (v.eval a).natAbs
  | operation operator v w result => operator.apply (v.eval a) (w.eval a) = some (result.eval a)

instance (a : Valuation) (r : Rule) : Decidable (r.Holds a) := by
  unfold Holds
  split <;> infer_instance

end Rule

namespace Propagator

/-- The rule holds, or the condition is false. -/
def Holds (a : Valuation) (p : Propagator) : Prop :=
  match p.condition with
  | none => p.rule.Holds a
  | some condition => condition.eval a ≠ 0 → p.rule.Holds a

instance (a : Valuation) (p : Propagator) : Decidable (p.Holds a) := by
  unfold Holds
  split <;> infer_instance

end Propagator

/-- Every variable can still take its value. -/
def Store.Admits (s : Store) (a : Valuation) : Prop :=
  ∀ x < s.numVariables, (s.set x).contains (a x) = true

instance (s : Store) (a : Valuation) : Decidable (s.Admits a) :=
  inferInstanceAs (Decidable (∀ x < s.numVariables, _))

/-- The valuation satisfies everything that was posted, and is still possible. -/
def IsSolution (e : Engine) (a : Valuation) : Prop :=
  e.store.Admits a ∧ ∀ p ∈ e.propagators, p.Holds a

end FiniteDomain.Engine
