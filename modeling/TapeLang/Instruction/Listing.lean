import TapeLang.Instruction
import TapeLang.Text.Integer

/-!
# Listings

The readable form of a program: one line an instruction, with its index aligned to the right and
its text indented by the loops around it. A number with too many digits leaves no listing.
-/

set_option autoImplicit false

namespace TapeLang

/-- A number with its sign, also where it is not negative. -/
def signed (n : Int) : String := if n < 0 then toString n else "+" ++ toString n

/-- The text of an instruction. A `clear` has no use for its argument and shows none. -/
def Instruction.text (i : Instruction) : String :=
  if i.kind = .clear then i.kind.name
  else i.kind.name ++ "(" ++ (if i.kind.isSigned then signed i.arg else toString i.arg) ++ ")"

/-- The number that the text shows, if any, can be written. -/
def Instruction.isWritable (i : Instruction) : Bool :=
  i.kind == .clear || Integer.isWritable i.arg

/-- A text filled up with blanks on the left. -/
def alignRight (width : Nat) (text : String) : String :=
  String.ofList (List.replicate (width - text.length) ' ') ++ text

namespace Listing

/-- The depth at which an instruction is shown, given the depth after the one before it: the end of
a loop is shown like its begin. -/
def shownDepth (depth : Int) (i : Instruction) : Int :=
  if i.kind = .endLoop then depth - 1 else depth

/-- The depth after an instruction shown at `depth`. -/
def depthAfter (depth : Int) (i : Instruction) : Int :=
  if i.kind = .beginLoop then depth + 1 else depth

/-- One line: the index, two blanks, two more for each loop around, and the text. A negative depth
does not indent. -/
def line (width index : Nat) (depth : Int) (i : Instruction) : String :=
  alignRight width (toString index) ++ "  "
    ++ String.ofList (List.replicate (2 * depth.toNat) ' ') ++ i.text

/-- The lines of the code from `index` on, at a given depth. -/
def linesFrom (width : Nat) : Nat → Int → List Instruction → List String
  | _, _, [] => []
  | index, depth, i :: rest =>
    line width index (shownDepth depth i) i
      :: linesFrom width (index + 1) (depthAfter (shownDepth depth i) i) rest

end Listing

/-- The lines of a program's listing; all indices have the width of the last. -/
def listingLines (program : Program) : List String :=
  Listing.linesFrom (toString (program.length - 1)).length 0 0 program

/-- The listing of a program, with numbers of any length. -/
def listing (program : Program) : String := "\n".intercalate (listingLines program)

/-- The listing of a program, if all its numbers can be written. -/
def listing? (program : Program) : Option String :=
  if program.all Instruction.isWritable then some (listing program) else none

end TapeLang
