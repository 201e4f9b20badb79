/-!
# Instructions

A compiled program is a flat list of instructions, each a kind with one integer. What the integer
means depends on the kind: an amount, a distance on the tape, a count or a jump distance.
-/

set_option autoImplicit false

namespace TapeLang

/-- What an instruction does. -/
inductive Kind where
  /-- Adds the argument to the current cell. -/
  | modify
  /-- Moves the pointer by the argument. -/
  | shift
  /-- Writes the current cell as often as the argument says. -/
  | print
  /-- Reads one byte into the current cell. -/
  | scan
  /-- On a zero cell, jumps forward by the argument, onto the matching end. -/
  | beginLoop
  /-- On a cell that is not zero, jumps back by the argument, onto the matching begin. -/
  | endLoop
  /-- Sets the current cell to zero. -/
  | clear
  /-- Adds the current cell to the one at the argument's distance and clears the current cell. -/
  | add
  /-- Subtracts the current cell from the one at that distance and clears the current cell. -/
  | sub
deriving DecidableEq, Repr, Inhabited

/-- One step of a program. -/
structure Instruction where
  kind : Kind
  arg : Int := 0
deriving DecidableEq, Repr, Inhabited

/-- A compiled program; its loops carry relative jump distances. -/
abbrev Program := List Instruction

namespace Kind

/-- The name of a kind in listings. -/
def name : Kind → String
  | modify => "Modify"
  | shift => "Shift"
  | print => "Print"
  | scan => "Scan"
  | beginLoop => "BeginLoop"
  | endLoop => "EndLoop"
  | clear => "Clear"
  | add => "Add"
  | sub => "Sub"

/-- Every kind, in the order of the opcodes. -/
def all : List Kind := [modify, shift, print, scan, beginLoop, endLoop, clear, add, sub]

/-- The kind of a given name. -/
def ofName? (text : String) : Option Kind := all.find? (·.name == text)

theorem ofName?_name (k : Kind) : ofName? k.name = some k := by cases k <;> rfl

/-- The number that stands for a kind in encoded programs. -/
def opcode (k : Kind) : Nat := all.idxOf k

/-- Two neighbours of one such kind act as one instruction with the sum of their arguments. -/
def isFoldable : Kind → Bool
  | modify | shift | print => true
  | _ => false

/-- The kinds that jump. -/
def isLoop : Kind → Bool
  | beginLoop | endLoop => true
  | _ => false

/-- The kinds whose argument is written with its sign. -/
def isSigned : Kind → Bool
  | modify | shift | add | sub => true
  | _ => false

end Kind

/-- No instruction of the list jumps. -/
def isFlat (code : List Instruction) : Bool := code.all (!·.kind.isLoop)

end TapeLang
