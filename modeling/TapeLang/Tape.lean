import TapeLang.Capacity

/-!
# The tape

Byte cells, unbounded to the right but for the memory: the tape grows in whole chunks, on request.
Cells are addressed by integers, and a negative index counts from the end of the tape.
-/

set_option autoImplicit false

namespace TapeLang

/-- The place that an index means in a sequence of a given size: an index from zero on counts from
the start and a negative one from the end. -/
def resolve? (size : Nat) (index : Int) : Option Nat :=
  if 0 ≤ index then
    if index < size then some index.toNat else none
  else if 0 ≤ index + size then some (index + size).toNat
  else none

/-- The byte that an integer leaves in a cell. -/
def byteOf (n : Int) : UInt8 := UInt8.ofNat (n % 256).toNat

/-- A tape and the number of cells by which it grows. -/
structure Tape where
  chunkSize : Nat
  cells : Array UInt8
  chunkSize_pos : 0 < chunkSize

namespace Tape

/-- A tape of one chunk, all zero. -/
def blank (chunkSize : Nat) (chunkSize_pos : 0 < chunkSize) : Tape :=
  ⟨chunkSize, Array.replicate chunkSize 0, chunkSize_pos⟩

/-- How many cells there are. -/
def size (t : Tape) : Nat := t.cells.size

/-- The cell at an index, if the tape has it. -/
def get? (t : Tape) (index : Int) : Option UInt8 :=
  match resolve? t.size index with
  | some place => t.cells[place]?
  | none => none

/-- The cell at an index; what the tape does not have counts as zero. -/
def get (t : Tape) (index : Int) : UInt8 := (t.get? index).getD 0

/-- Writes a cell. An index that the tape does not have changes nothing. -/
def set (t : Tape) (index : Int) (value : UInt8) : Tape :=
  match resolve? t.size index with
  | some place => { t with cells := t.cells.setIfInBounds place value }
  | none => t

/-- By how many cells the tape grows to get an index behind its end: by as few chunks as will do. -/
def growth (t : Tape) (index : Int) : Nat :=
  ((index.toNat - t.size) / t.chunkSize + 1) * t.chunkSize

/-- The tape with an index, grown if it is too short. -/
def extend (t : Tape) (index : Int) : Tape :=
  if index < t.size then t
  else { t with cells := t.cells ++ Array.replicate (t.growth index) 0 }

/-- Why the tape cannot be grown up to an index, if it cannot. The new cells are made first, and
then the longer tape. -/
def refusal? (t : Tape) (memory : Memory) (index : Int) : Option RoomError :=
  if index < t.size then none
  else (memory.refusal? (t.growth index)).or (memory.refusal? (t.size + t.growth index))

/-- Grows the tape up to an index, if there is room for that. -/
def ensure (t : Tape) (memory : Memory) (index : Int) : Except RoomError Tape :=
  match t.refusal? memory index with
  | some error => .error error
  | none => .ok (t.extend index)

/-- The tape as it was at first. There was room for that. -/
def reset (t : Tape) : Tape := blank t.chunkSize t.chunkSize_pos

/-- The first cells. A negative length leaves out that many cells at the end. -/
def snapshot (t : Tape) (length : Int) : List UInt8 :=
  let count := if 0 ≤ length then length.toNat else (t.size + length).toNat
  (t.cells.extract 0 count).toList

/-- The cells that are not zero, with their indices, in order. -/
def nonzero (t : Tape) : List (Nat × UInt8) :=
  t.cells.toList.zipIdx.filterMap fun (v, i) => if v = 0 then none else some (i, v)

end Tape

end TapeLang
