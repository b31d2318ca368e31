import FiniteDomain.Lowering.Backend

/-!
# Runs of the MiniZinc executable

The executable is part of the surroundings: what it does in the runs to come is given as
a list of replies, and the runs are recorded. A process that goes on beyond the time
limit and a grace period is killed.

A process is only started if its call can be written down for the system,
`startError?_eq_none_iff`: the name and the arguments end at a NUL, so none contains one,
and the room for one argument is limited.
-/

namespace FiniteDomain.MiniZinc

/-- How to call the executable. -/
structure Options where
  executable : String := "minizinc"
  /-- The solver that MiniZinc uses. -/
  solver : String := "gecode"
  /-- The solver may ignore search annotations. -/
  freeSearch : Bool := false
  /-- The optimisation level of the MiniZinc compiler. -/
  optimisationLevel : Option Nat := none
  /-- Additional arguments in front of the model file. -/
  extraArgs : List String := []
  /-- Milliseconds to wait beyond the time limit. -/
  gracePeriod : Nat := 1000
  deriving DecidableEq, Repr

/-- The arguments of a run, without the model file, which comes last. -/
def Options.arguments (options : Options) (timeLimit : Option Nat) : List String :=
  ["--solver", options.solver, "--output-mode", "dzn", "--output-objective", "--output-time"]
    ++ (match timeLimit with
      | some milliseconds => ["--time-limit", toString milliseconds]
      | none => [])
    ++ (if options.freeSearch then ["-f"] else [])
    ++ (match options.optimisationLevel with
      | some level => ["-O" ++ toString level]
      | none => [])
    ++ options.extraArgs

/-- What the process does in one run. -/
inductive Reply where
  /-- It prints and exits. -/
  | finished (stdout stderr : ByteArray) (exitCode : Int)
  /-- It prints nothing and does not end by itself. -/
  | hangs

/-- One run of the process. -/
structure Run where
  arguments : List String
  program : String
  killed : Bool
  deriving DecidableEq, Repr

/-- The executable as the backend finds it. -/
structure Process where
  installed : Bool := true
  /-- What it does in the runs to come; after that it prints nothing and exits. -/
  replies : List Reply := []
  /-- The runs so far. -/
  runs : Array Run := #[]

/-- What a run that ended by itself printed. -/
structure Printed where
  stdout : String
  stderr : String
  /-- The exit code was zero. -/
  success : Bool
  deriving DecidableEq, Repr

namespace Process

/-- What the process does in the next run. -/
def nextReply (p : Process) : Reply := p.replies.headD (.finished .empty .empty 0)

/-- Records the next run. -/
def record (p : Process) (arguments : List String) (program : String) : Process where
  installed := p.installed
  replies := p.replies.tail
  runs := p.runs.push
    { arguments, program, killed := p.nextReply matches .hangs }

/-- The most bytes that one argument can have. -/
def maxArgumentSize : Nat := 131071

/-- Why the executable cannot be started, if it cannot. A call that cannot be written down
is refused before the executable is looked for. -/
def startError? (p : Process) (executable : String) (arguments : List String) :
    Option LoweringError :=
  if (executable :: arguments).any fun s => s.toList.contains '\x00' then
    some .callContainsNul
  else if !p.installed then some .executableMissing
  else if arguments.any fun a => decide (maxArgumentSize < a.utf8ByteSize) then
    some .argumentTooLong
  else none

/-- Exactly the calls without a NUL and without a long argument start what is installed. -/
theorem startError?_eq_none_iff {p : Process} {executable : String} {arguments : List String} :
    p.startError? executable arguments = none ↔
      (∀ s ∈ executable :: arguments, '\x00' ∉ s.toList) ∧ p.installed ∧
        ∀ a ∈ arguments, a.utf8ByteSize ≤ maxArgumentSize := by
  unfold startError?
  split
  · next h =>
    obtain ⟨s, hs, hc⟩ := List.any_eq_true.1 h
    simp only [reduceCtorEq, false_iff]
    exact fun all => all.1 s hs (by simpa using hc)
  · next h =>
    have clean : ∀ s ∈ executable :: arguments, '\x00' ∉ s.toList := fun s hs hc =>
      h (List.any_eq_true.2 ⟨s, hs, by simpa using hc⟩)
    rw [and_iff_right clean]
    cases hi : p.installed <;> simp

end Process

/-- The text in UTF-8. -/
def decode (bytes : ByteArray) : Except LoweringError String :=
  match String.fromUTF8? bytes with
  | some text => .ok text
  | none => .error .outputNotText

/-- Both texts that a run printed. Of an exit code only the low eight bits are passed on. -/
def Printed.ofBytes (stdout stderr : ByteArray) (exitCode : Int) :
    Except LoweringError Printed := do
  let stdout ← decode stdout
  let stderr ← decode stderr
  return { stdout, stderr, success := exitCode % 256 == 0 }

end FiniteDomain.MiniZinc
