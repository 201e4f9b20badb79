import TapeLang.Machine.Effect

/-!
# The stepwise engine

Executes one instruction after the other. `execute` says what a single instruction does, `step`
fetches it and watches the step limit, and `runFrom` repeats `step`.
-/

set_option autoImplicit false

namespace TapeLang.Stepwise

/-- What comes of one instruction. -/
inductive Outcome where
  /-- The run goes on with the instruction at an index. -/
  | next (index : Int) (state : State)
  /-- There is no instruction left. -/
  | done (state : State)
  | failed (error : RunError) (state : State)

/-- Counts the instruction, if its effect has succeeded, and goes on at an index. -/
def goOn (index : Int) : Except Failure State → Outcome
  | .ok s => .next index s.tick
  | .error failure => .failed failure.error failure.state

/-- Goes on behind `target` if the current cell is zero or not, as `onZero` says, and else behind
`index`. -/
def branch (onZero : Bool) (target index : Int) (s : State) : Outcome :=
  match s.tape.get? s.pointer with
  | none => .failed s.noCell.error s
  | some cell => .next ((if (cell == 0) = onZero then target else index) + 1) s.tick

/-- Executes the instruction that stands at an index. -/
def execute (checked : Bool) (i : Instruction) (index : Int) (s : State) : Outcome :=
  match i.kind with
  | .modify => goOn (index + 1) (s.modify checked i.arg index)
  | .shift => goOn (index + 1) (s.shift i.arg index)
  | .print => goOn (index + 1) (s.print i.arg)
  | .scan => goOn (index + 1) (s.scan index)
  | .beginLoop => branch true (index + i.arg) index s
  | .endLoop => branch false (index - i.arg) index s
  | .clear => goOn (index + 1) (s.store 0)
  | .add => goOn (index + 1) (s.transfer checked 1 i.arg index)
  | .sub => goOn (index + 1) (s.transfer checked (-1) i.arg index)

/-- The step limit that has been reached, if there is one. -/
def limitReached? (options : Options) (s : State) : Option Int :=
  match options.maxSteps with
  | some limit => if limit ≤ s.steps then some limit else none
  | none => none

/-- One step of a run. Behind the last instruction the run is done; before the first one, indices
count from the end of the program. -/
def step (program : Array Instruction) (options : Options) (index : Int) (s : State) : Outcome :=
  if program.size ≤ index then .done s
  else match limitReached? options s with
    | some limit => .failed (.stepLimit limit ⟨s.pointer, index⟩) s
    | none =>
      match resolve? program.size index with
      | none => .failed (.noSuchInstruction index) s
      | some place =>
        match program[place]? with
        | none => .failed (.noSuchInstruction index) s
        | some i => execute (!options.allowOverflows) i index s

/-- A run of at most `fuel` steps that starts with the instruction at an index. -/
def runFrom (program : Array Instruction) (options : Options) :
    (fuel : Nat) → (index : Int) → State → Array Event → Report
  | 0, index, s, events => ⟨.unfinished index, s, events⟩
  | fuel + 1, index, s, events =>
    let size := s.tape.size
    match step program options index s with
    | .next index s =>
      runFrom program options fuel index s (noteGrowth size s.tape.size events)
    | .done s => ⟨.completed, s, events⟩
    | .failed error s => ⟨.failed error, s, noteGrowth size s.tape.size events⟩

end TapeLang.Stepwise
