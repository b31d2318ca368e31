import FiniteDomain.Constraint.Text
import FiniteDomain.Engine.Event

/-!
# Why lowering fails
-/

namespace FiniteDomain

/-- The causes for which a backend refuses a constraint, an objective or a solve. -/
inductive LoweringError where
  /-- The constraint can neither be posted nor decomposed. -/
  | noLowering (c : Constraint)
  /-- Solutions are enumerated for satisfaction problems only. -/
  | enumeratedOptimisation
  | antecedentNotAtomic (antecedent consequent : Constraint)
  | consequentNotReifiable (c : Constraint)
  | expressionNotAtomic (e : Expr)
  | constraintNotAtomic (c : Constraint)
  | engine (e : Engine.Error)
  | miniZinc (message : String)
  | timeLimitUnsupported
  | executableMissing
  /-- The name or an argument of the executable contains the character that ends it. -/
  | callContainsNul
  | argumentTooLong
  | outputNotText
  | invalidLine (line : String)
  | valueOutOfRange (line : String)

/-- The kinds of causes, by what the caller can do about them. -/
inductive LoweringError.Kind where
  | unsupportedConstruct
  | backendContractViolation
  | backendExecution
  | unsupportedOption
  | io
  | malformedOutput
  deriving DecidableEq, Repr

namespace LoweringError

/-- The kind of a cause. -/
def kind : LoweringError → Kind
  | noLowering _ => .unsupportedConstruct
  | enumeratedOptimisation => .unsupportedConstruct
  | antecedentNotAtomic _ _ => .backendContractViolation
  | consequentNotReifiable _ => .backendContractViolation
  | expressionNotAtomic _ => .backendContractViolation
  | constraintNotAtomic _ => .backendContractViolation
  | engine _ => .backendExecution
  | miniZinc _ => .backendExecution
  | timeLimitUnsupported => .unsupportedOption
  | executableMissing => .io
  | callContainsNul => .io
  | argumentTooLong => .io
  | outputNotText => .io
  | invalidLine _ => .malformedOutput
  | valueOutOfRange _ => .malformedOutput

/-- Nothing is known that the construct could be turned into. -/
private def noDecomposition (what : String) : String :=
  "no lowering or decomposition exists for " ++ what

/-- The input has not the shape that the backend relies on. -/
private def contractViolated (how : String) : String :=
  "constraint violates the backend contract: " ++ how

/-- The failure is one of the backend itself. -/
private def reported (backend message : String) : String :=
  "the " ++ backend ++ " backend reported an error: " ++ message

/-- The output of the backend cannot be read. -/
private def notUnderstood (why : String) : String :=
  "could not interpret the backend output: " ++ why

/-- The cause in words. -/
def message : LoweringError → String
  | noLowering c => noDecomposition c.text
  | enumeratedOptimisation =>
    noDecomposition "enumerating the solutions of an optimisation problem"
  | antecedentNotAtomic a c =>
    contractViolated ("the antecedent of " ++ (Constraint.implication a c).text
      ++ " is not a literal")
  | consequentNotReifiable c => contractViolated (c.text ++ " cannot be reified")
  | expressionNotAtomic e =>
    contractViolated ("expected a variable or constant, got " ++ e.text)
  | constraintNotAtomic c => contractViolated ("expected a literal, got " ++ c.text)
  | engine e => reported "api" e.message
  | miniZinc message => reported "minizinc" message
  | timeLimitUnsupported => "the api backend does not support the option 'time_limit'"
  | executableMissing => "io error: No such file or directory (os error 2)"
  | callContainsNul => "io error: nul byte found in provided data"
  | argumentTooLong => "io error: Argument list too long (os error 7)"
  | outputNotText => "io error: stream did not contain valid UTF-8"
  | invalidLine line => notUnderstood ("invalid solution line '" ++ line ++ "'")
  | valueOutOfRange line => notUnderstood ("value out of range in '" ++ line ++ "'")

end LoweringError

end FiniteDomain
