import TapeLang.Machine.Effect

/-!
# The batch engine

Executes encoded programs on signed words, in a loop that knows nothing of streams and cannot grow
the tape: for these it stops, and the machine around it acts and resumes it. Sums of words wrap
around at 64 bits.
-/

set_option autoImplicit false

namespace TapeLang.Batch

/-! ## Encoded programs -/

/-- The encoded form of a program; there is none if an argument is no word. -/
def encode? (program : List Instruction) : Option (Array Instruction) :=
  if program.all fun i => isWord i.arg then some program.toArray else none

/-! ## The loop -/

/-- Why the loop stops. -/
inductive Stop where
  | finished
  | print
  | scan
  | grow
  | underflow
  | limit
  /-- An index is outside its array even when counted from the end, or the pointer is no word. -/
  | failed (error : RunError)
deriving DecidableEq, Repr

/-- The number of a reason to stop. -/
def Stop.code : Stop → Nat
  | finished => 0
  | print => 1
  | scan => 2
  | grow => 3
  | underflow => 4
  | limit => 5
  | failed _ => 6

/-- The state of the loop: the index of the next instruction, the pointer, the cells, and how many
instructions have been completed. -/
structure Loop where
  index : Int
  pointer : Int
  memory : Array UInt8
  steps : Nat := 0

namespace Loop

/-- The place of the current cell. -/
def current? (l : Loop) : Option Nat := resolve? l.memory.size l.pointer

/-- The reason to stop if there is no current cell. -/
def noCell (l : Loop) : Stop := .failed (.missing l.pointer l.memory.size)

/-- The state after an instruction, with control at an index. -/
def proceed (l : Loop) (index : Int) : Loop := { l with index, steps := l.steps + 1 }

end Loop

/-- What comes of one round of the loop. -/
inductive Outcome where
  | next (loop : Loop)
  | stop (reason : Stop) (loop : Loop)

/-- Adds an amount to the current cell. -/
def modify (amount : Int) (l : Loop) : Outcome :=
  match l.current? with
  | none => .stop l.noCell l
  | some place =>
    let value := byteOf ((l.memory.getD place 0).toNat + amount)
    .next ({ l with memory := l.memory.setIfInBounds place value }.proceed (l.index + 1))

/-- Goes on with the target at a distance if it is a cell, and stops if it is left of the first or
needs a longer tape. Only a pointer that is a word can be added to. -/
def withTarget (distance : Int) (l : Loop) (act : Nat → Loop → Outcome) : Outcome :=
  if isWord l.pointer then
    let target := wrap (l.pointer + distance)
    if target < 0 then .stop .underflow l
    else if l.memory.size ≤ target then .stop .grow l
    else act target.toNat l
  else .stop (.failed .numberTooLarge) l

/-- Moves the pointer. -/
def shift (distance : Int) (l : Loop) : Outcome :=
  withTarget distance l fun target l =>
    .next ({ l with pointer := target }.proceed (l.index + 1))

/-- Jumps behind an index if the current cell is zero or not, as `onZero` says. -/
def branch (onZero : Bool) (index : Int) (l : Loop) : Outcome :=
  match l.current? with
  | none => .stop l.noCell l
  | some place =>
    .next (l.proceed
      (if (l.memory.getD place 0 == 0) = onZero then wrap (index + 1) else l.index + 1))

/-- Clears the current cell. -/
def clear (l : Loop) : Outcome :=
  match l.current? with
  | none => .stop l.noCell l
  | some place =>
    .next ({ l with memory := l.memory.setIfInBounds place 0 }.proceed (l.index + 1))

/-- Adds the current cell, times `sign`, to the one at a distance and clears it. -/
def transfer (sign distance : Int) (l : Loop) : Outcome :=
  withTarget distance l fun target l =>
    match l.current? with
    | none => .stop l.noCell l
    | some place =>
      let value := byteOf
        ((l.memory.getD target 0).toNat + sign * (l.memory.getD place 0).toNat)
      let memory := (l.memory.setIfInBounds target value).setIfInBounds place 0
      .next ({ l with memory }.proceed (l.index + 1))

/-- Executes one encoded instruction. -/
def execute (i : Instruction) (l : Loop) : Outcome :=
  match i.kind with
  | .modify => modify i.arg l
  | .shift => shift i.arg l
  | .print => .stop .print l
  | .scan => .stop .scan l
  | .beginLoop => branch true (l.index + i.arg) l
  | .endLoop => branch false (l.index - i.arg) l
  | .clear => clear l
  | .add => transfer 1 i.arg l
  | .sub => transfer (-1) i.arg l

/-- The instruction at an index. -/
def fetch? (code : Array Instruction) (index : Int) : Option Instruction :=
  match resolve? code.size index with
  | some place => code[place]?
  | none => none

/-- One round of the loop. A negative budget is no limit. -/
def step (code : Array Instruction) (budget : Int) (l : Loop) : Outcome :=
  if code.size ≤ l.index then .stop .finished l
  else if 0 ≤ budget ∧ budget ≤ l.steps then .stop .limit l
  else match fetch? code l.index with
    | some i => execute i l
    | none => .stop (.failed (.missing l.index code.size)) l

/-- At most `fuel` rounds of the loop. There is no reason to stop if the fuel runs out. -/
def loop (code : Array Instruction) (budget : Int) : (fuel : Nat) → Loop → Option Stop × Loop
  | 0, l => (none, l)
  | fuel + 1, l =>
    match step code budget l with
    | .next l => loop code budget fuel l
    | .stop reason l => (some reason, l)

/-! ## The machine around the loop -/

/-- What comes of acting on a stop of the loop. -/
inductive Resumption where
  /-- The loop is to be resumed at an index. -/
  | resume (index : Int) (state : State)
  | ended (ending : Ending) (state : State)

/-- Counts the instruction, if its effect has succeeded, and resumes the loop behind it. -/
def resumeAfter (index : Int) : Except Failure State → Resumption
  | .ok s => .resume (index + 1) s.tick
  | .error failure => .ended (.failed failure.error) failure.state

/-- Acts on a stop at the instruction at an index with a given argument. -/
def act (options : Options) (reason : Stop) (index arg : Int) (s : State) : Resumption :=
  match reason with
  | .finished => .ended .completed s
  | .print => resumeAfter index (s.print arg)
  | .scan => resumeAfter index (s.scan index)
  | .grow =>
    match s.reach (s.pointer + arg) with
    | .ok s => .resume index s
    | .error failure => .ended (.failed failure.error) failure.state
  | .underflow => .ended (.failed (.tapeUnderflow (s.pointer + arg) ⟨s.pointer, index⟩)) s
  | .limit => .ended (.failed (.stepLimit (options.maxSteps.getD 0) ⟨s.pointer, index⟩)) s
  | .failed error => .ended (.failed error) s

/-- How many instructions the loop may still complete; negative for no limit. -/
def budget (options : Options) (s : State) : Int :=
  match options.maxSteps with
  | some limit => limit - s.steps
  | none => -1

/-- The state of the loop at an index of the machine's program. -/
def enter (index : Int) (s : State) : Loop :=
  { index, pointer := s.pointer, memory := s.tape.cells }

/-- The machine's state after the loop has come to `l`. -/
def leave (s : State) (l : Loop) : State :=
  { s with
    tape := { s.tape with cells := l.memory }
    pointer := l.pointer
    steps := s.steps + l.steps }

/-- The state without its cells, which the loop holds meanwhile. -/
def lend (s : State) : State := { s with tape := { s.tape with cells := #[] } }

/-- A run of at most `fuel` visits to the loop, each of at most as many rounds. The loop is entered
with words only. -/
def runFrom (code : Array Instruction) (options : Options) :
    (fuel : Nat) → (index : Int) → State → Array Event → Report
  | 0, index, s, events => ⟨.unfinished index, s, events⟩
  | fuel + 1, index, s, events =>
    let allowed := budget options s
    if isWord s.pointer && isWord allowed then
      let entry := enter index s
      let outside := lend s
      match loop code allowed (fuel + 1) entry with
      | (none, l) => ⟨.unfinished l.index, leave outside l, events⟩
      | (some reason, l) =>
        let index := l.index
        let arg := match fetch? code index with
          | some i => i.arg
          | none => 0
        let size := l.memory.size
        let events := if reason = .grow then events.push (.yielded index) else events
        match act options reason index arg (leave outside l) with
        | .resume index s => runFrom code options fuel index s (noteGrowth size s.tape.size events)
        | .ended ending s => ⟨ending, s, events⟩
    else ⟨.failed .wordTooLarge, s, events⟩

end TapeLang.Batch
