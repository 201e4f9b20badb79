import TapeLang.Capacity
import TapeLang.Text.Quoted

/-!
# Run options

How a program is to be run, and which options a machine refuses.
-/

set_option autoImplicit false

namespace TapeLang

/-- How instructions are executed. -/
inductive Engine where
  /-- One instruction after the other, on unbounded integers. -/
  | stepwise
  /-- In a loop on machine words that hands over for input, output and growth. -/
  | batch
deriving DecidableEq, Repr

/-- The options of a run. -/
structure Options where
  /-- Cells wrap around; if not, a result outside a byte stops the run. -/
  allowOverflows : Bool := true
  /-- The run stops before it executes more instructions than this. -/
  maxSteps : Option Int := none
  /-- The number of cells by which the tape grows. -/
  chunkSize : Int := 30000
  /-- The name of the engine. -/
  engineName : String := "python"
deriving DecidableEq, Repr

/-- The name of an engine. -/
def Engine.name : Engine → String
  | .stepwise => "python"
  | .batch => "jit"

/-- The engines that can be asked for. -/
def Engine.all : List Engine := [.stepwise, .batch]

/-- The engine of a given name. -/
def Engine.ofName? (text : String) : Option Engine := all.find? (·.name == text)

/-- The engine that runs. An unknown name, which only unchecked options can have, means the stepwise
engine. -/
def Options.engine (o : Options) : Engine := (Engine.ofName? o.engineName).getD .stepwise

/-- Why options are refused. -/
inductive OptionsError where
  /-- A name, as it is shown, that no engine has. -/
  | unknownEngine (shown : String)
  | checkedBatch
  | negativeLimit (limit : Int)
  | chunkTooSmall (chunkSize : Int)
  /-- A chunk that there is no room for. -/
  | noRoom (error : RoomError)
deriving DecidableEq, Repr

/-- The text of a refusal. -/
def OptionsError.message : OptionsError → String
  | .unknownEngine shown =>
    "Unknown engine " ++ shown ++ ", expected one of ("
      ++ ", ".intercalate (Engine.all.map (quoted ·.name)) ++ ")"
  | .checkedBatch => "The jit engine does not support strict cell overflow checks"
  | .negativeLimit limit => "max_steps must not be negative, got " ++ toString limit
  | .chunkTooSmall chunkSize => "chunk_size must be positive, got " ++ toString chunkSize
  | .noRoom error => error.message

/-- The first reason to refuse the options of a new machine, apart from the size of chunks. -/
def Options.objection? (o : Options) : Option OptionsError :=
  if (Engine.ofName? o.engineName).isNone then some (.unknownEngine (quoted o.engineName))
  else if o.engine = .batch ∧ ¬ o.allowOverflows then some .checkedBatch
  else match o.maxSteps with
    | some limit => if limit < 0 then some (.negativeLimit limit) else none
    | none => none

end TapeLang
