import TapeLang.Capacity
import TapeLang.Text.Integer

/-!
# Errors of a run

What can stop a run, and how it is reported.
-/

set_option autoImplicit false

namespace TapeLang

/-- Where a run was when it stopped: the pointer, and the index of the instruction. -/
structure Place where
  pointer : Int
  index : Int
deriving DecidableEq, Repr

/-- Why a run stops. -/
inductive RunError where
  /-- A pointer or a target left of the first cell. -/
  | tapeUnderflow (target : Int) (place : Place)
  | inputExhausted (place : Place)
  /-- A checked result that is not a byte. -/
  | cellOverflow (cell value : Int) (place : Place)
  | stepLimit (limit : Int) (place : Place)
  /-- An index, of a cell or an encoded instruction, that the array of them does not have. -/
  | outOfBounds (index : Int) (size : Nat)
  /-- An index of a cell that is no word of any kind. -/
  | indexNoWord
  /-- An instruction further before the first one than the program is long. -/
  | noSuchInstruction (index : Int)
  /-- A number that is used as a word and is none: an argument of an encoded program, a pointer that
  is moved, or an index of a cell that would be a word without a sign. -/
  | numberTooLarge
  /-- The tape cannot be grown. -/
  | noRoom (error : RoomError)
  /-- A pointer or a budget with which the batch loop cannot be entered, as it is no word. -/
  | wordTooLarge
  | readFailed
  | pipeClosed
deriving DecidableEq, Repr

namespace RunError

/-- The error of an index that an array of a given size does not have. -/
def missing (index : Int) (size : Nat) : RunError :=
  if isWord index then .outOfBounds index size
  else if 0 ≤ index ∧ index < 2 * wordBound then .numberTooLarge
  else .indexNoWord

/-- Where the run stopped, for the errors that the language itself defines. -/
def place? : RunError → Option Place
  | tapeUnderflow _ place | inputExhausted place | cellOverflow _ _ place | stepLimit _ place =>
    some place
  | _ => none

/-- The index of an instruction, as messages show it. -/
def atInstruction (place : Place) : String := " (instruction " ++ toString place.index ++ ")"

/-- The text of an error. -/
def message : RunError → String
  | tapeUnderflow target place =>
    "Data pointer underflow: cell #" ++ toString target ++ atInstruction place
  | inputExhausted place => "Input exhausted" ++ atInstruction place
  | cellOverflow cell value place =>
    "Cell #" ++ toString cell ++ (if 255 < value then " overflow" else " underflow")
      ++ ": value " ++ toString value ++ atInstruction place
  | stepLimit limit place =>
    "Step limit of " ++ toString limit ++ " exceeded" ++ atInstruction place
  | outOfBounds index size =>
    "index " ++ toString index ++ " is out of bounds for axis 0 with size " ++ toString size
  | noSuchInstruction index =>
    if index < -wordBound then "cannot fit 'int' into an index-sized integer"
    else "tuple index out of range"
  | numberTooLarge => "Python int too large to convert to C long"
  | indexNoWord =>
    "only integers, slices (`:`), ellipsis (`...`), numpy.newaxis (`None`) and integer or boolean "
      ++ "arrays are valid indices"
  | noRoom error => error.message
  | wordTooLarge => "int too big to convert"
  | readFailed => "read failed"
  | pipeClosed => "pipe closed"

/-- The numbers that the message shows. -/
def numbers : RunError → List Int
  | tapeUnderflow target place => [target, place.index]
  | inputExhausted place => [place.index]
  | cellOverflow cell value place => [cell, value, place.index]
  | stepLimit limit place => [limit, place.index]
  | outOfBounds index size => [index, size]
  | _ => []

end RunError

/-- What a failed run raises. -/
inductive Raised where
  /-- The error that has stopped it. -/
  | error (error : RunError)
  /-- The message of that error would show a number with more digits than are written, so that there
  is no such error but only the failure to write the number. -/
  | notWritten
deriving DecidableEq, Repr

/-- What a run raises that an error has stopped. -/
def RunError.raised (e : RunError) : Raised :=
  if e.numbers.all Integer.isWritable then .error e else .notWritten

theorem RunError.raised_eq_error_iff {e e' : RunError} :
    e.raised = .error e' ↔ e = e' ∧ ∀ n ∈ e.numbers, Integer.isWritable n := by
  rw [raised, ← List.all_eq_true]
  by_cases h : e.numbers.all Integer.isWritable
  · rw [if_pos h]
    simp [h]
  · rw [if_neg h]
    simp [h]

/-- The text of what is raised. -/
def Raised.message : Raised → String
  | error e => e.message
  | notWritten => Integer.notWritten

end TapeLang
