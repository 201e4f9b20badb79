import TapeLang.Instruction
import TapeLang.Options
import TapeLang.RunError
import TapeLang.Stream
import TapeLang.Tape

/-!
# Machines

A machine is a program with options and a state. What a run leaves behind is a report: how it ended,
the state, and what happened to the tape on the way.
-/

set_option autoImplicit false

namespace TapeLang

/-- All that a run reads and changes. -/
structure State where
  tape : Tape
  pointer : Int := 0
  /-- Instructions completed since the last reset. -/
  steps : Nat := 0
  input : Input
  output : Output
  memory : Memory := .unlimited

/-- Something worth a line in a log. -/
inductive Event where
  /-- The tape has got more cells. -/
  | grown (before after : Nat)
  /-- The batch loop has stopped at an instruction whose target needs a longer tape. -/
  | yielded (index : Int)
deriving DecidableEq, Repr

/-- How a run ends. -/
inductive Ending where
  | completed
  | failed (error : RunError)
  /-- The fuel ran out before the instruction at an index. -/
  | unfinished (index : Int)
deriving DecidableEq, Repr

/-- What a run raises that ends so, if it fails. -/
def Ending.raised? : Ending → Option Raised
  | .failed error => some error.raised
  | .completed | .unfinished _ => none

/-- What a run leaves behind. -/
structure Report where
  ending : Ending
  state : State
  events : Array Event

/-- A program in a machine of its own. -/
structure Machine where
  program : Array Instruction
  options : Options
  state : State

namespace Machine

/-- A machine before its first run, with a blank tape; refused options are an error. -/
def new (program : Program) (options : Options) (input : Input) (output : Output)
    (memory : Memory := .unlimited) : Except OptionsError Machine :=
  match options.objection? with
  | some objection => .error objection
  | none =>
    if positive : 0 < options.chunkSize then
      match memory.refusal? options.chunkSize.toNat with
      | some error => .error (.noRoom error)
      | none =>
        let tape := Tape.blank options.chunkSize.toNat (by omega)
        .ok { program := program.toArray, options, state := { tape, input, output, memory } }
    else .error (.chunkTooSmall options.chunkSize)

/-- The machine with a blank tape, the pointer on the first cell and no steps. The streams stay
as they are. -/
def reset (m : Machine) : Machine :=
  { m with state := { m.state with tape := m.state.tape.reset, pointer := 0, steps := 0 } }

end Machine

/-- The events with the growth of the tape, if it has grown. -/
def noteGrowth (before after : Nat) (events : Array Event) : Array Event :=
  if before < after then events.push (.grown before after) else events

end TapeLang
