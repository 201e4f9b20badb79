import Mathlib.Data.List.Induction
import TapeLang.Source.Location

/-!
# Lines and locations

The lines of a text and the location of a position in it are counted apart from each other. Both
come to the same: the line of that number has the character of that position in that column
(`exists_line_of_getElem?`).
-/

set_option autoImplicit false

namespace TapeLang

/-! ## Lines -/

section
variable {c : Char} {text x y first last line : List Char} {before more lines : List (List Char)}

theorem linesOf_cons_newline (text : List Char) :
    linesOf ('\n' :: text) = [] :: linesOf text := by
  rw [linesOf, List.splitOn_cons_eq_if_modifyHead, if_pos (beq_self_eq_true _), linesOf]

theorem linesOf_cons (hc : c ≠ '\n') (h : linesOf text = first :: more) :
    linesOf (c :: text) = (c :: first) :: more := by
  unfold linesOf at h ⊢
  rw [List.splitOn_cons_eq_if_modifyHead, if_neg (by simpa using hc), h, List.modifyHead_cons]

variable (text) in
/-- There is always a first line. -/
theorem exists_linesOf_cons : ∃ first more, linesOf text = first :: more :=
  List.exists_cons_of_ne_nil (List.splitOn_ne_nil '\n' text)

variable (text) in
theorem exists_linesOf_concat : ∃ before last, linesOf text = before ++ [last] := by
  obtain ⟨first, more, h⟩ := exists_linesOf_cons text
  rw [h]
  exact ⟨_, _, (List.dropLast_concat_getLast (List.cons_ne_nil first more)).symm⟩

theorem eq_nil_of_linesOf_nil (h : linesOf [] = before ++ [last]) : before = [] ∧ last = [] := by
  cases before with
  | nil => simpa [linesOf] using h.symm
  | cons => simp [linesOf] at h

/-- The last line of one text and the first of the next are one line of both together. -/
theorem linesOf_append (hx : linesOf x = before ++ [last]) (hy : linesOf y = first :: more) :
    linesOf (x ++ y) = before ++ (last ++ first) :: more := by
  induction x generalizing before last with
  | nil =>
    obtain ⟨rfl, rfl⟩ := eq_nil_of_linesOf_nil hx
    exact hy
  | cons c x ih =>
    obtain ⟨before', last', hx'⟩ := exists_linesOf_concat x
    have happend := ih hx'
    rw [List.cons_append]
    by_cases hc : c = '\n'
    · subst hc
      rw [linesOf_cons_newline, hx', ← List.cons_append] at hx
      obtain ⟨rfl, hlast⟩ := List.append_inj' hx rfl
      cases hlast
      rw [linesOf_cons_newline, happend]
      rfl
    · cases before' with
      | nil =>
        have hcons : [] ++ [c :: last'] = before ++ [last] := by
          rw [← hx, linesOf_cons hc hx']
          rfl
        obtain ⟨rfl, hlast⟩ := List.append_inj' hcons rfl
        cases hlast
        exact linesOf_cons hc happend
      | cons head tail =>
        have hcons : (c :: head) :: tail ++ [last'] = before ++ [last] := by
          rw [← hx, linesOf_cons hc hx']
          rfl
        obtain ⟨rfl, hlast⟩ := List.append_inj' hcons rfl
        cases hlast
        exact linesOf_cons hc happend

theorem newline_not_mem_of_mem (h : line ∈ linesOf text) : '\n' ∉ line := by
  induction text generalizing line with
  | nil =>
    obtain rfl : line = [] := by simpa [linesOf] using h
    exact List.not_mem_nil
  | cons c text ih =>
    by_cases hc : c = '\n'
    · subst hc
      rw [linesOf_cons_newline, List.mem_cons] at h
      rcases h with rfl | h
      · exact List.not_mem_nil
      · exact ih h
    · obtain ⟨first, more, hlines⟩ := exists_linesOf_cons text
      rw [hlines] at ih
      rw [linesOf_cons hc hlines, List.mem_cons] at h
      rcases h with rfl | h
      · have hfirst := ih (List.mem_cons_self (a := first))
        simp [Ne.symm hc, hfirst]
      · exact ih (List.mem_cons_of_mem first h)

/-- One more character ends the last line or stands at its end. -/
theorem linesOf_concat_cases (h : linesOf (text ++ [c]) = before ++ [last]) :
    ∃ before' last', linesOf text = before' ++ [last'] ∧
      (c = '\n' ∧ before = before' ++ [last'] ∧ last = [] ∨
        c ≠ '\n' ∧ before = before' ∧ last = last' ++ [c]) := by
  obtain ⟨before', last', htext⟩ := exists_linesOf_concat text
  refine ⟨before', last', htext, ?_⟩
  by_cases hc : c = '\n'
  · subst hc
    rw [linesOf_append htext (linesOf_cons_newline []), List.append_cons, List.append_nil] at h
    obtain ⟨rfl, hlast⟩ := List.append_inj' h rfl
    cases hlast
    exact .inl ⟨rfl, rfl, rfl⟩
  · have hone : linesOf [c] = [[c]] := linesOf_cons hc rfl
    rw [linesOf_append htext hone] at h
    obtain ⟨rfl, hlast⟩ := List.append_inj' h rfl
    cases hlast
    exact .inr ⟨hc, rfl, rfl⟩

/-- A text ends with its last line. -/
theorem isSuffix_of_linesOf (h : linesOf text = before ++ [last]) : last <:+ text := by
  induction text using List.reverseRecOn generalizing before last with
  | nil =>
    obtain ⟨-, rfl⟩ := eq_nil_of_linesOf_nil h
    exact List.suffix_rfl
  | append_singleton text c ih =>
    obtain ⟨_, _, htext, ⟨-, -, rfl⟩ | ⟨-, -, rfl⟩⟩ := linesOf_concat_cases h
    · exact List.nil_suffix
    · obtain ⟨older, holder⟩ := ih htext
      exact ⟨older, by rw [← List.append_assoc, holder]⟩

/-! ## Locations -/

/-- The location behind a text is told by its last line. -/
theorem foldl_advance (h : linesOf text = before ++ [last]) :
    text.foldl Location.advance {} = ⟨before.length + 1, last.length + 1⟩ := by
  induction text using List.reverseRecOn generalizing before last with
  | nil =>
    obtain ⟨rfl, rfl⟩ := eq_nil_of_linesOf_nil h
    rfl
  | append_singleton text c ih =>
    obtain ⟨_, _, htext, ⟨hc, rfl, rfl⟩ | ⟨hc, rfl, rfl⟩⟩ := linesOf_concat_cases h
    · simp [ih htext, Location.advance, hc]
    · simp [ih htext, Location.advance, hc]

/-- **A position lies on the line that its location names**, behind as many characters of it as
there are columns before. -/
theorem exists_line_of_getElem? {position : Nat} (h : text[position]? = some c) (hc : c ≠ '\n') :
    ∃ (before : List (List Char)) (row : List Char) (behind : List (List Char)) (column : Nat),
      linesOf text = before ++ row :: behind ∧
      Location.ofPosition text position = ⟨before.length + 1, column + 1⟩ ∧
      column ≤ position ∧ ∀ i ≤ column, row[column - i]? = text[position - i]? := by
  obtain ⟨hlt, hget⟩ := List.getElem?_eq_some_iff.1 h
  have htext : text.take position ++ c :: text.drop (position + 1) = text := by
    rw [← hget, List.getElem_cons_drop, List.take_append_drop]
  obtain ⟨before, last, hbefore⟩ := exists_linesOf_concat (text.take position)
  obtain ⟨first, behind, hbehind⟩ := exists_linesOf_cons (text.drop (position + 1))
  obtain ⟨older, holder⟩ := isSuffix_of_linesOf hbefore
  have hlines := linesOf_append hbefore (linesOf_cons hc hbehind)
  rw [htext] at hlines
  have hlength := congrArg List.length holder
  simp only [List.length_append, List.length_take] at hlength
  refine ⟨before, _, behind, last.length, hlines, ?_, by omega, fun i hi => ?_⟩
  · rw [Location.ofPosition_of_le text (by omega), foldl_advance hbefore]
  · have hplace : position - i - older.length = last.length - i := by omega
    have hright : text[position - i]?
        = (last ++ c :: text.drop (position + 1))[last.length - i]? := by
      conv_lhs => rw [← htext, ← holder, List.append_assoc]
      rw [List.getElem?_append_right (by omega), hplace]
    rw [hright]
    rcases Nat.eq_zero_or_pos i with rfl | hpos
    · simp
    · rw [List.getElem?_append_left (by omega), List.getElem?_append_left (by omega)]

end

end TapeLang
