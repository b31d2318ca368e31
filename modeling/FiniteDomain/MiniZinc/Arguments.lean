import FiniteDomain.Direction
import FiniteDomain.MiniZinc.Process
import FiniteDomain.Text.Digits

/-!
# Options on the command line

An option is given by its long name, some also by a letter; letters can be joined behind
one hyphen. A value follows as the next argument or is attached, after an equals sign if
the option has its long name. Every option but the additional arguments is given at most
once.

An occurrence is only checked when the next one begins or the arguments end, so an
argument that is not known is reported before a bad value in front of it.
-/

namespace FiniteDomain.MiniZinc

/-- What can be set on the command line. -/
inductive Setting where
  | executable
  | solver
  | freeSearch
  | optimisationLevel
  | extraArg
  | gracePeriod
  | direction
  | help
  deriving DecidableEq, Repr

/-- Why the arguments are refused; asking for help counts as a refusal. -/
inductive ArgumentError where
  | unknownArgument
  | invalidValue
  | valueValidation
  | argumentConflict
  | tooManyValues
  | displayHelp
  deriving DecidableEq, Repr

/-- The settings read so far. -/
structure Settings where
  options : Options := {}
  direction : Option Direction := none
  /-- The settings that have been made. -/
  made : List Setting := []
  /-- The last occurrence, with its value if it has come, until it is checked. -/
  pending : Option (Setting × Option String) := none
  deriving Repr

/-- A computation on arguments. -/
abbrev Parsing := Except ArgumentError

namespace Setting

/-- The setting with a long name. -/
def ofLong? : String → Option Setting
  | "minizinc" => some executable
  | "minizinc-solver" => some solver
  | "free-search" => some freeSearch
  | "optimisation-level" => some optimisationLevel
  | "minizinc-arg" => some extraArg
  | "grace-period" => some gracePeriod
  | "direction" => some direction
  | "help" => some help
  | _ => none

/-- The setting with a letter. -/
def ofShort? : Char → Option Setting
  | 'f' => some freeSearch
  | 'O' => some optimisationLevel
  | 'h' => some help
  | _ => none

/-- The setting is given together with a value. -/
def takesValue : Setting → Bool
  | freeSearch => false
  | help => false
  | _ => true

end Setting

/-- A number of milliseconds, which may have a plus sign and fits into 64 bits. -/
def parseMilliseconds (value : String) : Parsing Nat :=
  let digits := match value.toList with
    | '+' :: cs => cs
    | cs => cs
  match Text.natural? digits with
  | some n => if n < 18446744073709551616 then .ok n else .error .valueValidation
  | none => .error .valueValidation

/-- An optimisation level, which may have a sign and lies between 0 and 255. -/
def parseLevel (value : String) : Parsing Nat :=
  let (negative, digits) := match value.toList with
    | '+' :: cs => (false, cs)
    | '-' :: cs => (true, cs)
    | cs => (false, cs)
  match Text.natural? digits with
  | some n => if n = 0 ∨ n ≤ 255 ∧ !negative then .ok n else .error .valueValidation
  | none => .error .valueValidation

/-- A direction by its name, in small letters. -/
def parseDirection : String → Parsing Direction
  | "minimise" => .ok .minimise
  | "maximise" => .ok .maximise
  | _ => .error .invalidValue

namespace Settings

/-- Applies an occurrence of a setting. -/
def apply (s : Settings) (setting : Setting) (value : Option String) : Parsing Settings := do
  if setting.takesValue && value.isNone then
    throw .invalidValue
  if setting = .help then
    throw .displayHelp
  if setting ≠ .extraArg ∧ setting ∈ s.made then
    throw .argumentConflict
  let s := { s with made := setting :: s.made }
  let value := value.getD ""
  match setting with
  | .executable =>
    if value.isEmpty then
      throw .invalidValue
    return { s with options := { s.options with executable := value } }
  | .solver => return { s with options := { s.options with solver := value } }
  | .freeSearch => return { s with options := { s.options with freeSearch := true } }
  | .optimisationLevel =>
    let level ← parseLevel value
    return { s with options := { s.options with optimisationLevel := some level } }
  | .extraArg =>
    return { s with options := { s.options with extraArgs := s.options.extraArgs ++ [value] } }
  | .gracePeriod =>
    let gracePeriod ← parseMilliseconds value
    return { s with options := { s.options with gracePeriod } }
  | .direction => return { s with direction := some (← parseDirection value) }
  | .help => return s

/-- Applies the pending occurrence. -/
def settle (s : Settings) : Parsing Settings :=
  match s.pending with
  | none => .ok s
  | some (setting, value) => { s with pending := none }.apply setting value

/-- Begins an occurrence: one without a value, or with an attached one, is complete. -/
def beginSetting (s : Settings) (setting : Setting) (attached : Option String) :
    Parsing Settings := do
  let s ← s.settle
  if setting.takesValue && attached.isNone then
    return { s with pending := some (setting, none) }
  s.apply setting attached

/-- The long name and the attached value of an argument behind its two hyphens. -/
def splitLong (cs : List Char) : String × Option String :=
  let name := String.ofList (cs.takeWhile (· != '='))
  match cs.dropWhile (· != '=') with
  | [] => (name, none)
  | _ :: value => (name, some (String.ofList value))

/-- Reads an argument with a long name. -/
def readLong (s : Settings) (cs : List Char) : Parsing Settings := do
  let (name, value) := splitLong cs
  match Setting.ofLong? name with
  | none => throw .unknownArgument
  | some setting =>
    if !setting.takesValue && value.isSome then
      throw .tooManyValues
    s.beginSetting setting value

/-- Reads the letters behind a hyphen; what follows the letter of a setting with a value is
that value. -/
def readLetters (s : Settings) : List Char → Parsing Settings
  | [] => .ok s
  | c :: cs =>
    match Setting.ofShort? c with
    | none => .error .unknownArgument
    | some setting =>
      if setting.takesValue then
        let attached := match cs with
          | [] => none
          | '=' :: value => some (String.ofList value)
          | value => some (String.ofList value)
        s.beginSetting setting attached
      else
        match s.beginSetting setting none with
        | .ok s => readLetters s cs
        | .error e => .error e

/-- Reads an argument that has no hyphen in front: it can only be an awaited value. -/
def readValue (s : Settings) (value : String) : Parsing Settings :=
  match s.pending with
  | some (setting, none) => .ok { s with pending := some (setting, some value) }
  | _ => .error .unknownArgument

/-- Reads all arguments. After two hyphens nothing may follow. -/
def readAll (s : Settings) : List String → Parsing Settings
  | [] => s.settle
  | arg :: rest =>
    match arg.toList with
    | ['-', '-'] => if rest.isEmpty then s.settle else .error .unknownArgument
    | '-' :: '-' :: cs => do readAll (← s.readLong cs) rest
    | ['-'] => do readAll (← s.readValue arg) rest
    | '-' :: cs => do readAll (← s.readLetters cs) rest
    | _ => do readAll (← s.readValue arg) rest

end Settings

/-- Reads the settings from the command line, without the name of the program. -/
def parseArguments (args : List String) : Parsing Settings := Settings.readAll {} args

end FiniteDomain.MiniZinc
