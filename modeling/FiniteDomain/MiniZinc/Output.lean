import FiniteDomain.ElapsedTime
import FiniteDomain.Lowering.Error
import FiniteDomain.MiniZinc.Status
import FiniteDomain.Text.Blank
import FiniteDomain.Text.Digits

/-!
# What MiniZinc prints

Marker lines tell the status. The values of a solution stand in lines `name = value;`
before the separator that ends it; blank lines and comments are skipped. The elapsed time
is a comment of its own.
-/

namespace FiniteDomain.MiniZinc

open Text

/-- The line after every solution. -/
def solutionSeparator : String := "----------"

/-- The line after the last solution of a complete search. -/
def searchComplete : String := "=========="

/-- The interpreted output of one run. -/
structure Output where
  status : Status
  /-- The values in the last solution, with the latest first. -/
  values : List (String × Int)
  objective : Option Int
  /-- The last elapsed time. -/
  elapsed : Option Duration

/-- The character can begin an identifier. -/
def isIdentStart (c : Char) : Bool := c.isAlpha || c == '_'

/-- The character can continue an identifier. -/
def isIdentRest (c : Char) : Bool := c.isAlphanum || c == '_'

/-- An optional sign, digits or a truth value at the start, and the rest. -/
def takeValue? (cs : List Char) : Option (Int × List Char) :=
  match cs with
  | '-' :: rest => (takeDigits? rest).map fun (digits, rest) => (-numberOf digits, rest)
  | _ =>
    match takeDigits? cs with
    | some (digits, rest) => some (numberOf digits, rest)
    | none =>
      match dropStart? "true".toList cs with
      | some rest => some (1, rest)
      | none => (dropStart? "false".toList cs).map fun rest => (0, rest)

/-- A line `name = value;`. -/
def parseAssignment? (line : List Char) : Option (String × Int) := do
  let start ← line.head?
  guard (isIdentStart start)
  let name := line.takeWhile isIdentRest
  let afterEquals ← dropStart? ['='] (skipBlanks (line.dropWhile isIdentRest))
  let (value, rest) ← takeValue? (skipBlanks afterEquals)
  guard (skipBlanks rest == [';'])
  return (String.ofList name, value)

/-- The assignments in the lines of a solution, added in front of the given ones. -/
def parseSolution (values : List (String × Int)) :
    List (List Char) → Except LoweringError (List (String × Int))
  | [] => .ok values
  | line :: rest =>
    let line := trim line
    if line.isEmpty || line.head? == some '%' then parseSolution values rest
    else
      match parseAssignment? line with
      | none => .error (.invalidLine (String.ofList line))
      | some (name, value) =>
        if word64.Fits value then parseSolution ((name, value) :: values) rest
        else .error (.valueOutOfRange (String.ofList line))

/-- The text between the last two separators, or before the only one. -/
def lastSolution (stdout : List Char) : List Char :=
  let separator := solutionSeparator.toList
  let upToLast := match splitLast? separator stdout with
    | some (before, _) => before
    | none => stdout
  match splitLast? separator upToLast with
  | some (_, after) => after
  | none => upToLast

/-- A comment `% time elapsed: seconds s`. -/
def parseElapsed? (line : List Char) : Option Duration := do
  let rest ← dropStart? ['%'] line
  let rest ← dropStart? "time elapsed:".toList (skipBlanks rest)
  let (whole, rest) ← takeDigits? (skipBlanks rest)
  let (decimals, rest) := match rest with
    | '.' :: cs => (takeDigits? cs).getD ([], rest)
    | _ => ([], rest)
  guard (skipBlanks rest == ['s'])
  Duration.ofDecimal? (numberOf (whole ++ decimals)) decimals.length

/-- What the process says about its failure. -/
def failureMessage (stdout stderr : List Char) : String :=
  let complaint := trim stderr
  String.ofList (if complaint.isEmpty then trim stdout else complaint)

/-- The status that the lines of the output tell. -/
def statusOf (stdout stderr : List Char) (success optimising : Bool) : Status :=
  let has (marker : String) : Bool := (lines stdout).any fun line => trim line == marker.toList
  if has "=====ERROR=====" then .error (failureMessage stdout stderr)
  else if has solutionSeparator then
    if !has searchComplete then .satisfied
    else if optimising then .optimalSolution
    else .allSolutions
  else if has "=====UNSATISFIABLE=====" then .unsatisfiable
  else if has "=====UNSATorUNBOUNDED=====" then .unsatisfiableOrUnbounded
  else if has "=====UNBOUNDED=====" then .unbounded
  else if has "=====UNKNOWN=====" || success then .unknown
  else .error (failureMessage stdout stderr)

/-- The status comes with a solution. -/
def Status.hasSolution : Status → Bool
  | satisfied => true
  | allSolutions => true
  | optimalSolution => true
  | _ => false

/-- Interprets the output of a run. Whether the program has an objective decides what the
end of the search means. -/
def parseOutput (stdout stderr : String) (success optimising : Bool) :
    Except LoweringError Output := do
  let out := stdout.toList
  let status := statusOf out stderr.toList success optimising
  let values ← if status.hasSolution then parseSolution [] (lines (lastSolution out)) else .ok []
  return {
    status
    values
    objective := values.lookup "_objective"
    elapsed := ((lines out).filterMap fun line => parseElapsed? (trim line)).getLast? }

end FiniteDomain.MiniZinc
