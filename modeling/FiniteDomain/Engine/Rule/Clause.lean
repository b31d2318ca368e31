import FiniteDomain.Engine.Store

/-!
# Rules on truth values

A view used as a Boolean is true if it is not zero. A conjunction makes all of its
literals true; a disjunction and a parity act once a single literal is undecided.
-/

namespace FiniteDomain.Engine

/-- The literals which the store decides neither way. -/
def Store.undecided (s : Store) (literals : List View) : List View :=
  literals.filter fun v => !s.isTrue v && !s.isFalse v

namespace Conjunction

/-- All literals are true. -/
def propagate (literals : List View) : Narrowing Unit := literals.forM View.makeTrue

/-- Some literal is false. -/
def isViolated (literals : List View) (s : Store) : Bool := literals.any s.isFalse

end Conjunction

namespace Disjunction

/-- At least one literal is true: the last one that is not false has to be. -/
def propagate (literals : List View) : Narrowing Unit := do
  if ← Narrowing.ask fun s => literals.any s.isTrue then
    return ()
  match ← Narrowing.ask fun s => literals.filter (!s.isFalse ·) with
  | [] => throw .conflict
  | [last] => last.makeTrue
  | _ => return ()

/-- All literals are false. -/
def isViolated (literals : List View) (s : Store) : Bool := literals.all s.isFalse

end Disjunction

namespace Parity

/-- An odd number of literals is true: the last undecided one makes it so. -/
def propagate (literals : List View) : Narrowing Unit := do
  let odd ← Narrowing.ask fun s => literals.countP s.isTrue % 2 == 1
  match ← Narrowing.ask (·.undecided literals) with
  | [] => if odd then return () else throw .conflict
  | [last] => if odd then last.makeFalse else last.makeTrue
  | _ => return ()

end Parity

end FiniteDomain.Engine
