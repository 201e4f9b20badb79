import TapeLang.Capacity
import TapeLang.Instruction.Listing
import TapeLang.Source.Location

/-!
# Excerpts

The lines around a fault, with the faulty line marked and a caret below the faulty column.
-/

set_option autoImplicit false

namespace TapeLang.Excerpt

/-- What stands before the text of a line: a mark, the number in four places, and a bar. -/
def margin (marked : Bool) (number : Int) : String :=
  (if marked then "> " else "  ") ++ alignRight 4 (toString number) ++ " | "

/-- The line with the caret, which stands in the given column; a column before the first puts it
where the text begins. -/
def caretLine (column : Int) : String :=
  "       | " ++ String.ofList (List.replicate (column - 1).toNat ' ') ++ "^"

/-- The rows for the line of a given number. -/
def rows (lines : List (List Char)) (marked column number : Int) : List String :=
  let text := String.ofList (lines.getD (number - 1).toNat [])
  if number = marked then [margin true number ++ text, caretLine column]
  else [margin false number ++ text]

/-- The numbers from `first` to `last`, both included. -/
def range (first last : Int) : List Int :=
  (List.range (last + 1 - first).toNat).map fun (k : Nat) => first + k

/-- The rows of an excerpt with up to `around` lines before and behind the marked one. A line number
outside the text marks the nearest line. -/
def build (lines : List (List Char)) (line column around : Int) : List String :=
  let count : Int := lines.length
  let marked := max 1 (min line count)
  (range (max 1 (marked - around)) (min count (marked + around))).flatMap
    (rows lines marked column)

/-- What stands against the blanks before the caret, which are written if a line is shown at all. -/
def capacityError? (memory : Memory) (lines : List (List Char)) (column around : Int) :
    Option CapacityError :=
  if lines = [] ∨ around < 0 then none else memory.objection? (column - 1)

end TapeLang.Excerpt

namespace TapeLang

/-- The text of an excerpt. -/
def excerpt (lines : List (List Char)) (line column around : Int) : String :=
  "\n".intercalate (Excerpt.build lines line column around)

/-- The text of an excerpt, unless its caret stands too far to the right, or too far to the left. -/
def excerpt? (memory : Memory) (lines : List (List Char)) (line column around : Int) :
    Except CapacityError String :=
  match Excerpt.capacityError? memory lines column around with
  | some error => .error error
  | none => .ok (excerpt lines line column around)

end TapeLang
