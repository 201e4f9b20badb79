import TapeLang.Capacity
import TapeLang.Instruction

/-!
# Commands

The eight command characters of a source text, and the text that stands for a program. All other
characters are comments.
-/

set_option autoImplicit false

namespace TapeLang

/-- What one character of a source text asks for. -/
inductive Command where
  /-- A command that is an instruction of its own. -/
  | plain (instruction : Instruction)
  | openLoop
  | closeLoop
deriving DecidableEq, Repr

/-- The command of a character; `none` for a comment. -/
def Command.ofChar? : Char → Option Command
  | '+' => some (.plain ⟨.modify, 1⟩)
  | '-' => some (.plain ⟨.modify, -1⟩)
  | '>' => some (.plain ⟨.shift, 1⟩)
  | '<' => some (.plain ⟨.shift, -1⟩)
  | '.' => some (.plain ⟨.print, 1⟩)
  | ',' => some (.plain ⟨.scan, 1⟩)
  | '[' => some .openLoop
  | ']' => some .closeLoop
  | _ => none

/-- How many characters of a text are commands. -/
def commandCount (text : List Char) : Nat := text.countP fun c => (Command.ofChar? c).isSome

/-- A source given as bytes: every byte is one character, so that positions count bytes. -/
def textOfBytes (bytes : List UInt8) : List Char := bytes.map fun b => Char.ofNat b.toNat

/-- A character written `n` times, not at all if `n` is negative. -/
def repeated (c : Char) (n : Int) : List Char := List.replicate n.toNat c

/-- The commands that move the pointer by a distance. -/
def moves (distance : Int) : List Char := repeated '>' distance ++ repeated '<' (-distance)

/-- The commands that an instruction stands for; fused instructions are written as their loop. -/
def Instruction.commands (i : Instruction) : List Char :=
  match i.kind with
  | .modify => repeated '+' i.arg ++ repeated '-' (-i.arg)
  | .shift => moves i.arg
  | .print => repeated '.' i.arg
  | .scan => [',']
  | .beginLoop => ['[']
  | .endLoop => [']']
  | .clear => ['[', '-', ']']
  | .add => ['[', '-'] ++ moves i.arg ++ ['+'] ++ moves (-i.arg) ++ [']']
  | .sub => ['[', '-'] ++ moves i.arg ++ ['-'] ++ moves (-i.arg) ++ [']']

/-- The source text of a program. -/
def sourceOf (program : Program) : List Char := program.flatMap Instruction.commands

/-- What stands against writing the commands of an instruction. Moves and changes repeat a command
by the size of their argument, prints by the argument itself. A fused loop has two moves. -/
def Instruction.capacityError? (memory : Memory) (i : Instruction) : Option CapacityError :=
  match i.kind with
  | .modify | .shift => memory.objection? i.arg.natAbs
  | .print => memory.objection? i.arg
  | .add | .sub =>
    (memory.objection? i.arg.natAbs).or (memory.objection? (2 * i.arg.natAbs + 4 : Nat))
  | .scan | .beginLoop | .endLoop | .clear => none

/-- The source text of a program, unless an instruction stands for too many commands, or all of them
together for a text that is too long. -/
def sourceOf? (memory : Memory) (program : Program) : Except CapacityError (List Char) :=
  match program.findSome? (Instruction.capacityError? memory) with
  | some error => .error error
  | none =>
    match memory.objection? (sourceOf program).length with
    | some error => .error error
    | none => .ok (sourceOf program)

end TapeLang
