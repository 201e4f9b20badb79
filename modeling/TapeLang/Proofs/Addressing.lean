import Mathlib.Algebra.Ring.Nat
import Mathlib.Data.List.DropRight
import Mathlib.Data.Set.Function
import TapeLang.Proofs.Locating

/-!
# Locations as addresses

A location is as good as the position it is told for. `Location.Addresses` says what it tells:
counting the line ends before a position, looking for the last of them and splitting the text into
lines agree with each other, and the lengths of the lines lead back to the position
(`Location.offset`). So positions and the locations within the lines of a text are in one-to-one
correspondence (`positions_correspond`).
-/

set_option autoImplicit false

namespace TapeLang

/-- How many characters some lines have, each with a line end behind it. -/
def lengthOfLines (lines : List (List Char)) : Nat := (lines.map fun line => line.length + 1).sum

namespace Location

/-- The line that a location names. -/
def row (lines : List (List Char)) (l : Location) : List Char := lines[l.line - 1]?.getD []

/-- How many characters, line ends included, are before a location. -/
def offset (lines : List (List Char)) (l : Location) : Int :=
  lengthOfLines (lines.take (l.line - 1)) + (l.column - 1)

/-- The location is at a character of one of the lines or behind the last of a line. -/
structure Within (lines : List (List Char)) (l : Location) : Prop where
  one_le_line : 1 ≤ l.line
  line_le : l.line ≤ lines.length
  one_le_column : 1 ≤ l.column
  column_le : l.column ≤ (l.row lines).length + 1

/-- What a location tells of a position in a text. -/
structure Addresses (text : List Char) (position : Nat) (l : Location) : Prop where
  /-- Before the position, as many lines have ended as are before that line. -/
  line_eq : l.line = (text.take position).count '\n' + 1
  /-- Behind the last line end before the position, as many characters stand as are before that
  column. -/
  column_eq : l.column = ((text.take position).rtakeWhile (· ≠ '\n')).length + 1
  within : l.Within (linesOf text)
  offset_eq : l.offset (linesOf text) = position
  getElem?_eq : ∀ c, text[position]? = some c → c ≠ '\n' →
    (l.row (linesOf text))[(l.column - 1).toNat]? = some c

end Location

/-! ## Lines -/

section
variable {text line last : List Char} {before more lines : List (List Char)} {m n : Nat}

@[simp] theorem lengthOfLines_nil : lengthOfLines [] = 0 := rfl

@[simp] theorem lengthOfLines_cons :
    lengthOfLines (line :: lines) = line.length + 1 + lengthOfLines lines := rfl

@[simp] theorem lengthOfLines_append :
    lengthOfLines (before ++ more) = lengthOfLines before + lengthOfLines more := by
  rw [lengthOfLines, List.map_append, List.sum_append]
  rfl

theorem lengthOfLines_take_succ (h : lines[n]? = some line) :
    lengthOfLines (lines.take (n + 1)) = lengthOfLines (lines.take n) + line.length + 1 := by
  simp [List.take_add_one, h, Nat.add_assoc]

variable (lines) in
theorem lengthOfLines_take_mono (h : m ≤ n) :
    lengthOfLines (lines.take m) ≤ lengthOfLines (lines.take n) := by
  obtain ⟨k, rfl⟩ := Nat.exists_eq_add_of_le h
  simp [List.take_add]

variable (text) in
/-- Every line but the last has an end. -/
theorem length_linesOf : (linesOf text).length = text.count '\n' + 1 := by
  induction text with
  | nil => rfl
  | cons c text ih =>
    by_cases hc : c = '\n'
    · subst hc
      simp [linesOf_cons_newline, ih]
    · obtain ⟨first, more, hlines⟩ := exists_linesOf_cons text
      rw [hlines] at ih
      simp only [linesOf_cons hc hlines, List.count_cons_of_ne hc, ← ih, List.length_cons]

/-- The last line is what follows the last line end. -/
theorem last_eq_rtakeWhile (h : linesOf text = before ++ [last]) :
    last = text.rtakeWhile (· ≠ '\n') := by
  induction text using List.reverseRecOn generalizing before last with
  | nil => exact (eq_nil_of_linesOf_nil h).2
  | append_singleton text c ih =>
    obtain ⟨_, _, htext, ⟨rfl, -, rfl⟩ | ⟨hc, -, rfl⟩⟩ := linesOf_concat_cases h
    · rw [List.rtakeWhile_concat_neg _ _ _ (by simp)]
    · rw [List.rtakeWhile_concat_pos _ _ _ (by simpa using hc), ih htext]

/-- The lines are as long as the text. -/
theorem length_of_linesOf (h : linesOf text = before ++ [last]) :
    lengthOfLines before + last.length = text.length := by
  induction text using List.reverseRecOn generalizing before last with
  | nil =>
    obtain ⟨rfl, rfl⟩ := eq_nil_of_linesOf_nil h
    rfl
  | append_singleton text c ih =>
    obtain ⟨_, _, htext, ⟨-, rfl, rfl⟩ | ⟨-, rfl, rfl⟩⟩ := linesOf_concat_cases h
    · simp [← ih htext, Nat.add_assoc]
    · simp [← ih htext, Nat.add_assoc]

variable (text) in
theorem lengthOfLines_linesOf : lengthOfLines (linesOf text) = text.length + 1 := by
  obtain ⟨before, last, hlines⟩ := exists_linesOf_concat text
  simp [hlines, ← length_of_linesOf hlines, Nat.add_assoc]

end

namespace Location

variable {text : List Char} {lines : List (List Char)} {position : Nat} {k l : Location}

/-! ## Offsets -/

theorem Within.row_eq (h : l.Within lines) : lines[l.line - 1]? = some (l.row lines) := by
  have hone := h.one_le_line
  have hle := h.line_le
  rw [row, List.getElem?_eq_getElem (by omega), Option.getD_some]

/-- A location is before the next line. -/
theorem Within.offset_lt (h : l.Within lines) :
    l.offset lines < lengthOfLines (lines.take l.line) := by
  have hone := h.one_le_line
  have hcolumn := h.column_le
  have hnext := lengthOfLines_take_succ h.row_eq
  rw [Nat.sub_add_cancel hone] at hnext
  unfold offset
  omega

theorem Within.lt_of_line_lt (hk : k.Within lines) (hl : l.Within lines) (h : k.line < l.line) :
    k.offset lines < l.offset lines := by
  have hlt := hk.offset_lt
  have hle := lengthOfLines_take_mono lines (show k.line ≤ l.line - 1 by omega)
  have hcolumn := hl.one_le_column
  unfold offset at hlt ⊢
  omega

/-- An offset tells the location. -/
theorem Within.offset_inj (hk : k.Within lines) (hl : l.Within lines)
    (h : k.offset lines = l.offset lines) : k = l := by
  obtain ⟨line, column⟩ := k
  obtain ⟨line', column'⟩ := l
  rcases Nat.lt_trichotomy line line' with hlt | rfl | hlt
  · exact absurd h (hk.lt_of_line_lt hl hlt).ne
  · obtain rfl : column = column' := by
      simp only [offset] at h
      omega
    rfl
  · exact absurd h (hl.lt_of_line_lt hk hlt).ne'

theorem Within.offset_le_length (h : l.Within (linesOf text)) :
    0 ≤ l.offset (linesOf text) ∧ l.offset (linesOf text) ≤ text.length := by
  have hlt := h.offset_lt
  have hle := lengthOfLines_take_mono (linesOf text) h.line_le
  rw [List.take_length, lengthOfLines_linesOf] at hle
  have hcolumn := h.one_le_column
  constructor
  · unfold offset
    omega
  · omega

/-! ## Positions -/

/-- The line of a position, with what ends before it and what begins behind it. -/
theorem exists_lines_ofPosition (h : position ≤ text.length) :
    ∃ before last first behind, linesOf (text.take position) = before ++ [last] ∧
      linesOf text = before ++ (last ++ first) :: behind ∧
      ofPosition text position = ⟨before.length + 1, last.length + 1⟩ := by
  obtain ⟨before, last, hbefore⟩ := exists_linesOf_concat (text.take position)
  obtain ⟨first, behind, hbehind⟩ := exists_linesOf_cons (text.drop position)
  have hlines := linesOf_append hbefore hbehind
  rw [List.take_append_drop] at hlines
  refine ⟨before, last, first, behind, hbefore, hlines, ?_⟩
  rw [ofPosition_of_le text h, foldl_advance hbefore]

theorem line_ofPosition (h : position ≤ text.length) :
    (ofPosition text position).line = (text.take position).count '\n' + 1 := by
  obtain ⟨before, last, -, -, hbefore, -, hlocation⟩ := exists_lines_ofPosition h
  rw [← length_linesOf, hbefore, hlocation, List.length_append, List.length_singleton]

theorem column_ofPosition (h : position ≤ text.length) :
    (ofPosition text position).column
      = ((text.take position).rtakeWhile (· ≠ '\n')).length + 1 := by
  obtain ⟨before, last, -, -, hbefore, -, hlocation⟩ := exists_lines_ofPosition h
  rw [← last_eq_rtakeWhile hbefore, hlocation]

theorem within_ofPosition (h : position ≤ text.length) :
    (ofPosition text position).Within (linesOf text) := by
  obtain ⟨before, last, first, behind, -, hlines, hlocation⟩ := exists_lines_ofPosition h
  have hrow : row (linesOf text) ⟨before.length + 1, last.length + 1⟩ = last ++ first := by
    simp [row, hlines]
  rw [hlocation]
  exact {
    one_le_line := Nat.succ_pos _
    line_le := by simp [hlines]
    one_le_column := Int.le_add_of_nonneg_left (Int.natCast_nonneg _)
    column_le := by
      rw [hrow, List.length_append]
      exact Int.add_le_add_right (Int.ofNat_le.2 (Nat.le_add_right ..)) 1 }

/-- A location leads back to the position. -/
theorem offset_ofPosition (h : position ≤ text.length) :
    (ofPosition text position).offset (linesOf text) = position := by
  obtain ⟨before, last, first, behind, hbefore, hlines, hlocation⟩ := exists_lines_ofPosition h
  have hlength := length_of_linesOf hbefore
  rw [List.length_take, Nat.min_eq_left h] at hlength
  simp only [offset, hlocation, hlines, Nat.add_sub_cancel, List.take_left]
  omega

/-- A character that is no line end is at its location. -/
theorem getElem?_row_ofPosition {c : Char} (h : text[position]? = some c) (hc : c ≠ '\n') :
    ((ofPosition text position).row (linesOf text))[((ofPosition text position).column - 1).toNat]?
      = some c := by
  obtain ⟨before, line, behind, column, hlines, hlocation, -, hget⟩ := exists_line_of_getElem? h hc
  have hrow : (ofPosition text position).row (linesOf text) = line := by
    simp [row, hlocation, hlines]
  rw [hrow, hlocation, ← h]
  simpa using hget 0 (Nat.zero_le column)

theorem addresses_ofPosition (h : position ≤ text.length) :
    (ofPosition text position).Addresses text position where
  line_eq := line_ofPosition h
  column_eq := column_ofPosition h
  within := within_ofPosition h
  offset_eq := offset_ofPosition h
  getElem?_eq _ := getElem?_row_ofPosition

end Location

/-- **Positions and locations correspond one to one.** The location of a position tells its line and
column and leads back to it, and each location within the lines is that of one position. -/
theorem positions_correspond (text : List Char) :
    (∀ position : Nat, position ≤ text.length →
      (Location.ofPosition text position).Addresses text position) ∧
    Set.BijOn (fun position : Nat => Location.ofPosition text position)
      {position | position ≤ text.length} {l | l.Within (linesOf text)} := by
  refine ⟨fun _ => Location.addresses_ofPosition, fun _ => Location.within_ofPosition,
    fun p hp q hq h => ?_, fun l hl => ?_⟩
  · have hoffset := Location.offset_ofPosition hp
    rw [show Location.ofPosition text p = Location.ofPosition text q from h,
      Location.offset_ofPosition hq] at hoffset
    omega
  · obtain ⟨h₀, hle⟩ := Location.Within.offset_le_length hl
    obtain ⟨p, hoffset⟩ := Int.eq_ofNat_of_zero_le h₀
    have hp : p ≤ text.length := by omega
    exact ⟨p, hp, (Location.within_ofPosition hp).offset_inj hl
      ((Location.offset_ofPosition hp).trans hoffset.symm)⟩

/-- A line end on an empty line, and the end of the text. -/
theorem positions_correspond_emptyLine :
    (Location.ofPosition ['+', '\n', '\n', '-'] (2 : Nat)).Addresses ['+', '\n', '\n', '-'] 2 ∧
    (Location.ofPosition ['+', '\n', '\n', '-'] (4 : Nat)).Addresses ['+', '\n', '\n', '-'] 4 ∧
    Location.ofPosition ['+', '\n', '\n', '-'] (2 : Nat) = ⟨2, 1⟩ ∧
    Location.ofPosition ['+', '\n', '\n', '-'] (4 : Nat) = ⟨3, 2⟩ := by
  have h := (positions_correspond ['+', '\n', '\n', '-']).1
  exact ⟨h 2 (by decide), h 4 (by decide), rfl, rfl⟩

end TapeLang
