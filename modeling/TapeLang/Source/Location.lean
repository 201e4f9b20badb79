/-!
# Locations

A position in a text counts its characters from zero. Readers are told a line and a column, both
counted from one. `ofPosition_of_le` says what that comes to for a position in the text.
-/

set_option autoImplicit false

namespace TapeLang

/-- A line and a column of a text. -/
structure Location where
  line : Nat := 1
  column : Int := 1
deriving DecidableEq, Repr

namespace Location

/-- The location behind a character that stands at `l`. -/
def advance (l : Location) (c : Char) : Location :=
  if c = '\n' then ⟨l.line + 1, 1⟩ else ⟨l.line, l.column + 1⟩

/-- How many characters of a text stand before a position. A negative one counts from the end. -/
def charactersBefore (length : Nat) (position : Int) : Nat :=
  if 0 ≤ position then min position.toNat length else (length + position).toNat

/-- Where a position lies: on the line that the characters before it lead to, in the column by
which it is behind the start of that line. So positions past the end go on counting on the last
line, and negative ones stand before their line. -/
def ofPosition (text : List Char) (position : Int) : Location :=
  let before := charactersBefore text.length position
  let l := (text.take before).foldl advance {}
  ⟨l.line, l.column + (position - before)⟩

theorem ofPosition_of_le (text : List Char) {position : Nat} (h : position ≤ text.length) :
    ofPosition text position = (text.take position).foldl advance {} := by
  have hbefore : charactersBefore text.length position = position := by
    rw [charactersBefore, if_pos (by omega)]; omega
  simp [ofPosition, hbefore]

end Location

/-- The lines of a text, without the line ends between them; there is always one. -/
def linesOf (text : List Char) : List (List Char) := text.splitOn '\n'

end TapeLang
