import TapeLang.Machine

/-!
# Effects

What single instructions do to the state, apart from the step counter and from where control goes.
An effect that fails says what it has done before.
-/

set_option autoImplicit false

namespace TapeLang

/-- An error and the state in which it leaves the machine. -/
structure Failure where
  error : RunError
  state : State

/-- The value fits a cell. -/
def isByte (value : Int) : Bool := 0 ≤ value && value ≤ 255

namespace State

/-- The error of a pointer that is on no cell. -/
def noCell (s : State) : Failure := ⟨.missing s.pointer s.tape.size, s⟩

/-- Writes the current cell, if there is one. -/
def store (value : UInt8) (s : State) : Except Failure State :=
  match s.tape.get? s.pointer with
  | none => .error s.noCell
  | some _ => .ok { s with tape := s.tape.set s.pointer value }

/-- Adds an amount to the current cell. -/
def modify (checked : Bool) (amount index : Int) (s : State) : Except Failure State :=
  match s.tape.get? s.pointer with
  | none => .error s.noCell
  | some cell =>
    let value := cell.toNat + amount
    if checked && !isByte value then
      .error ⟨.cellOverflow s.pointer value ⟨s.pointer, index⟩, s⟩
    else .ok { s with tape := s.tape.set s.pointer (byteOf value) }

/-- Grows the tape up to a target. -/
def reach (target : Int) (s : State) : Except Failure State :=
  match s.tape.ensure s.memory target with
  | .error error => .error ⟨.noRoom error, s⟩
  | .ok tape => .ok { s with tape }

/-- Moves the pointer, growing the tape below it. -/
def shift (distance index : Int) (s : State) : Except Failure State :=
  let target := s.pointer + distance
  if target < 0 then .error ⟨.tapeUnderflow target ⟨s.pointer, index⟩, s⟩
  else
    match s.reach target with
    | .error failure => .error failure
    | .ok s => .ok { s with pointer := target }

/-- Adds the current cell, times `sign`, to the one at a distance and clears it. The tape has grown
up to the target before the result is checked. -/
def transfer (checked : Bool) (sign distance index : Int) (s : State) : Except Failure State :=
  let target := s.pointer + distance
  if target < 0 then .error ⟨.tapeUnderflow target ⟨s.pointer, index⟩, s⟩
  else
    match s.reach target with
    | .error failure => .error failure
    | .ok s =>
      match s.tape.get? s.pointer with
      | none => .error s.noCell
      | some cell =>
        let value := (s.tape.get target).toNat + sign * cell.toNat
        if checked && !isByte value then
          .error ⟨.cellOverflow target value ⟨s.pointer, index⟩, s⟩
        else .ok { s with tape := (s.tape.set target (byteOf value)).set s.pointer 0 }

/-- Writes the current cell `count` times; a negative count writes nothing. -/
def print (count : Int) (s : State) : Except Failure State :=
  match s.tape.get? s.pointer with
  | none => .error s.noCell
  | some cell =>
    let (output, complete) := s.output.putMany cell count.toNat
    if complete then .ok { s with output } else .error ⟨.pipeClosed, { s with output }⟩

/-- Reads a byte into the current cell. The byte is consumed even if there is no such cell. -/
def scan (index : Int) (s : State) : Except Failure State :=
  match s.input.read? with
  | none => .error ⟨.readFailed, s⟩
  | some (none, input) => .error ⟨.inputExhausted ⟨s.pointer, index⟩, { s with input }⟩
  | some (some byte, input) => store byte { s with input }

/-- The state with one more instruction completed. -/
def tick (s : State) : State := { s with steps := s.steps + 1 }

end State

end TapeLang
