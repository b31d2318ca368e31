import FiniteDomain.Engine.Rule.Clause
import FiniteDomain.Engine.Rule.Distinct
import FiniteDomain.Engine.Rule.LinearEquality
import FiniteDomain.Engine.Rule.Operation
import FiniteDomain.Engine.Rule.Relation

/-!
# Propagators

A rule removes values that are in no solution of its constraint. A rule may be weak,
but once all of its views are fixed it has to fail if they violate the constraint:
the search relies on that alone.

A propagator is a rule, enforced always or only if its condition is true. While the
condition is undecided the rule is merely asked whether it is violated, and if so the
condition is made false.
-/

namespace FiniteDomain.Engine

/-- The constraints that can be enforced. -/
inductive Rule where
  | conjunction (literals : List View)
  | disjunction (literals : List View)
  | parity (literals : List View)
  | equal (a b : View)
  | notEqual (a b : View)
  | less (a b : View) (orEqual : Bool)
  | linear (terms : List Linear.Term) (rhs : Int)
  | allDifferent (views : List View)
  | absolute (signed absolute : View)
  | operation (operator : Operator) (a b result : View)
  deriving Repr

namespace Rule

/-- The implication from `a` to `b`, as a disjunction. -/
def implies (a b : View) : Rule := .disjunction [a.complement, b]

/-- The linear equality without its zero terms. -/
def ofTerms (terms : List Linear.Term) (rhs : Int) : Rule :=
  .linear (terms.filter (·.1 != 0)) rhs

/-- The name in log messages. -/
def name : Rule → String
  | conjunction _ => "Conjunction"
  | disjunction _ => "Disjunction"
  | parity _ => "Xor"
  | equal _ _ => "Equals"
  | notEqual _ _ => "NotEquals"
  | less _ _ orEqual => if orEqual then "LessThanOrEqual" else "LessThan"
  | linear _ _ => "LinearEquality"
  | allDifferent _ => "AllDifferent"
  | absolute _ _ => "IntAbs"
  | operation .sum _ _ _ => "IntPlus"
  | operation .times _ _ _ => "IntTimes"
  | operation .div _ _ _ => "IntDiv"
  | operation .mod _ _ _ => "IntMod"
  | operation .pow _ _ _ => "IntPow"

/-- The views that the rule reads. -/
def views : Rule → List View
  | conjunction literals => literals
  | disjunction literals => literals
  | parity literals => literals
  | equal a b => [a, b]
  | notEqual a b => [a, b]
  | less a b _ => [a, b]
  | linear terms _ => terms.map (·.2)
  | allDifferent views => views
  | absolute a b => [a, b]
  | operation _ a b result => [a, b, result]

/-- Removes values that are in no solution of the constraint. -/
def propagate : Rule → Narrowing Unit
  | conjunction literals => Conjunction.propagate literals
  | disjunction literals => Disjunction.propagate literals
  | parity literals => Parity.propagate literals
  | equal a b => Equal.propagate a b
  | notEqual a b => NotEqual.propagate a b
  | less a b orEqual => Less.propagate a b orEqual
  | linear terms rhs => Linear.propagate terms rhs
  | allDifferent views => AllDifferent.propagate views
  | absolute a b => Absolute.propagate a b
  | operation operator a b result => Operation.propagate operator a b result

/-- Whether propagating now would end in a conflict. Some rules have a test of their
own; the others try it and take everything back. -/
def isViolated : Rule → Narrowing Bool
  | conjunction literals => Narrowing.ask (Conjunction.isViolated literals)
  | disjunction literals => Narrowing.ask (Disjunction.isViolated literals)
  | notEqual a b => Narrowing.ask (NotEqual.isViolated a b)
  | less a b orEqual => Narrowing.ask (Less.isViolated a b orEqual)
  | linear terms rhs => Narrowing.ask (Linear.isViolated terms rhs)
  | allDifferent views => Narrowing.ask (AllDifferent.isViolated views)
  | parity literals => Narrowing.wouldFail (Parity.propagate literals)
  | equal a b => Narrowing.wouldFail (Equal.propagate a b)
  | absolute a b => Narrowing.wouldFail (Absolute.propagate a b)
  | operation operator a b result =>
    Narrowing.wouldFail (Operation.propagate operator a b result)

end Rule

/-- A rule, and the view that has to be true for it to be enforced. -/
structure Propagator where
  rule : Rule
  condition : Option View := none
  deriving Repr

namespace Propagator

/-- The name in log messages. -/
def name (p : Propagator) : String :=
  match p.condition with
  | none => p.rule.name
  | some _ => "Reified(" ++ p.rule.name ++ ")"

/-- The views whose changes wake the propagator. -/
def views (p : Propagator) : List View := p.rule.views ++ p.condition.toList

/-- Enforces the rule as far as the condition allows. -/
def propagate (p : Propagator) : Narrowing Unit :=
  match p.condition with
  | none => p.rule.propagate
  | some condition => do
    if ← Narrowing.ask (·.isFalse condition) then
      return ()
    if ← Narrowing.ask (·.isTrue condition) then
      p.rule.propagate
    else if ← p.rule.isViolated then
      condition.makeFalse

end Propagator

end FiniteDomain.Engine
