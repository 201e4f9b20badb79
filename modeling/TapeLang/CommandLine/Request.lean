import TapeLang.CommandLine.Word
import TapeLang.Options
import TapeLang.Text.Integer

/-!
# Requests

What the arguments ask for. They are read from left to right; the last value of a flag counts, the
first operand names the program, and what is left over is an error only when all else is well.
-/

set_option autoImplicit false

namespace TapeLang.CommandLine

/-- A setting that takes a value. A flag that gives none leaves it blank, which is an error for
whoever looks at the value. -/
inductive Setting (α : Type) where
  | blank
  | value (value : α)
deriving DecidableEq, Repr

/-- The settings of a call. -/
structure Settings where
  level : Setting Int := .value 1
  dump : Bool := false
  verbose : Bool := false
  strict : Bool := false
  maxSteps : Setting (Option Int) := .value none
  chunkSize : Setting Int := .value 30000
  engineName : Setting String := .value "python"
deriving DecidableEq, Repr

/-- Why the reading of arguments ends early. -/
inductive Halt where
  /-- Help has been asked for. -/
  | help
  | misuse (error : UsageError)
deriving DecidableEq, Repr

/-! ## Flags and their values -/

/-- The value of a flag as an integer. -/
def integerFor (flag : Flag) (value : String) : Except Halt Int :=
  match Integer.read? value.toList with
  | some n => .ok n
  | none => .error (.misuse (.notAnInteger flag value))

/-- The levels that can be asked for. -/
def levels : List Int := [0, 1]

/-- The value of the engine flag. -/
def engineFor (value : String) : Except Halt String :=
  if (Engine.ofName? value).isSome then .ok value
  else .error (.misuse (.notAChoice .engine (quoted value) (Engine.all.map (quoted ·.name))))

/-- The value of the level flag. -/
def levelFor (value : String) : Except Halt Int := do
  let n ← integerFor .level value
  if levels.contains n then .ok n
  else .error (.misuse (.notAChoice .level (toString n) (levels.map toString)))

/-- The setting that a value makes. The separator of operands counts as no value where it is written
together with a flag. -/
def settingOf {α : Type} (value : String) (read : String → Except Halt α) :
    Except Halt (Setting α) :=
  if value = "--" then .ok .blank else (read value).map .value

/-- Does what a flag asks for. Flags without value ignore it. -/
def Settings.apply (s : Settings) (flag : Flag) (value : String) : Except Halt Settings :=
  match flag with
  | .help => .error .help
  | .dump => .ok { s with dump := true }
  | .verbose => .ok { s with verbose := true }
  | .strict => .ok { s with strict := true }
  | .level => do
    let level ← settingOf value levelFor
    return { s with level }
  | .maxSteps => do
    let maxSteps ← settingOf value fun value => some <$> integerFor flag value
    return { s with maxSteps }
  | .chunkSize => do
    let chunkSize ← settingOf value (integerFor flag)
    return { s with chunkSize }
  | .engine => do
    let engineName ← settingOf value engineFor
    return { s with engineName }

/-- Why settings make no options of a run. -/
inductive SettingsError where
  | refused (error : OptionsError)
  /-- A number is blank that is to be compared with another. -/
  | blankNumber
deriving DecidableEq, Repr

/-- The options of a run, with the first reason against them. No engine has a blank name. -/
def Settings.runOptions (s : Settings) : Except SettingsError Options :=
  match s.engineName with
  | .blank => .error (.refused (.unknownEngine "[]"))
  | .value engineName =>
    let engine : Options := { allowOverflows := !s.strict, engineName }
    let limited := match s.maxSteps with
      | .blank => engine
      | .value maxSteps => { engine with maxSteps }
    match limited.objection?, s.maxSteps, s.chunkSize with
    | some objection, _, _ => .error (.refused objection)
    | none, .value _, .value chunkSize => .ok { limited with chunkSize }
    | none, _, _ => .error .blankNumber

/-- The flags of one argument with their values, and a last flag that still lacks its value. -/
structure Cluster where
  settled : List (Flag × String) := []
  lacking : Option Flag := none
deriving DecidableEq, Repr

/-- The cluster of a flag written with one dash and the text behind it: a value, or the letters of
more such flags. -/
def clusterOf (flag : Flag) : List Char → Except UsageError Cluster
  | [] =>
    .ok (if flag.takesValue then { lacking := some flag } else { settled := [(flag, "")] })
  | letter :: rest =>
    if flag.takesValue then .ok { settled := [(flag, String.ofList (letter :: rest))] }
    else match Flag.ofSpelling? (String.ofList ['-', letter]) with
      | none => .error (.strayValue flag (String.ofList (letter :: rest)))
      | some next => do
        let cluster ← clusterOf next rest
        return { cluster with settled := (flag, "") :: cluster.settled }

/-- The cluster of an option word. A value given in so many words must be one that the flag takes,
except that letters behind a short spelling may be flags. -/
def cluster (flag : Flag) (spelling : String) (value : Option String) :
    Except UsageError Cluster :=
  match value with
  | none => clusterOf flag []
  | some value =>
    if flag.takesValue then .ok { settled := [(flag, value)] }
    else if value = "" ∨ spelling.length ≠ 2 then .error (.strayValue flag value)
    else clusterOf flag value.toList

/-! ## Reading -/

/-- How far the arguments have been read. -/
structure Reading where
  settings : Settings := {}
  /-- The operand that names the program. -/
  file : Option String := none
  /-- The word before was that operand. -/
  justTaken : Bool := false
  /-- What nothing asks for, last first. -/
  leftover : List String := []
deriving DecidableEq, Repr

namespace Reading

/-- Puts an argument aside. -/
def putAside (r : Reading) (argument : String) : Reading :=
  { r with leftover := argument :: r.leftover, justTaken := false }

/-- Takes an operand. -/
def take (r : Reading) (text : String) : Reading :=
  match r.file with
  | none => { r with file := some text, justTaken := true }
  | some _ => r.putAside text

/-- Passes the separator, which is part of the operand that stands beside it. -/
def pass (r : Reading) : Reading :=
  if r.file.isNone ∨ r.justTaken then { r with justTaken := false } else r.putAside "--"

/-- Does what the flags of a cluster ask for. -/
def applyAll (r : Reading) (flags : List (Flag × String)) : Except Halt Reading := do
  let settings ← flags.foldlM (fun s (flag, value) => s.apply flag value) r.settings
  return { r with settings, justTaken := false }

/-- Reads words from left to right. A flag that lacks its value takes the operand behind it. -/
def readAll (r : Reading) : List Word → Except Halt Reading
  | [] => .ok r
  | .operand text :: rest => (r.take text).readAll rest
  | .unknown text :: rest => (r.putAside text).readAll rest
  | .separator :: rest => r.pass.readAll rest
  | .option flag spelling value :: rest =>
    match cluster flag spelling value, rest with
    | .error e, _ => .error (.misuse e)
    | .ok ⟨settled, none⟩, rest => do (← r.applyAll settled).readAll rest
    | .ok ⟨settled, some lacking⟩, .operand text :: rest => do
      (← r.applyAll (settled ++ [(lacking, text)])).readAll rest
    | .ok ⟨_, some lacking⟩, _ => .error (.misuse (.missingValue lacking))

end Reading

/-- A call of the program: settings, and the file that holds the program; without one, it is read
from the input. -/
structure Request where
  settings : Settings
  file : Option String
deriving DecidableEq, Repr

/-- The request that arguments make. -/
def Request.ofArguments (arguments : List String) : Except Halt Request :=
  match Word.ofArguments arguments with
  | .error e => .error (.misuse e)
  | .ok words =>
    match ({} : Reading).readAll words with
    | .error halt => .error halt
    | .ok r =>
      match r.leftover with
      | [] => .ok ⟨r.settings, r.file.filter (· != "")⟩
      | leftover => .error (.misuse (.unrecognized leftover.reverse))

end TapeLang.CommandLine
