import Mathlib.Data.List.Nodup
import TapeLang.Proofs.Locating
import TapeLang.Proofs.Numbers
import TapeLang.Proofs.Rejecting

/-!
# Carets

The context of an error shows the line to blame, marked, and below it a caret. The margin keeps four
places for the number of a line and grows with a longer one, and the caret does not move with it. So
the bracket to blame is right above the caret as long as line numbers have four digits
(`caret_points_iff`).
-/

set_option autoImplicit false

namespace TapeLang

/-- By how many digits the number of the line is longer than four. -/
def Location.surplus (l : Location) : Nat := (toString l.line).length - 4

/-- A single row is marked, and the row below it has a single caret, at an offset. -/
inductive Excerpt.Marks : List (List Char) → List Char → Nat → Prop
  | intro {before behind : List (List Char)} {marked caret : List Char} {offset : Nat} :
      marked.head? = some '>' → (∀ row ∈ before ++ caret :: behind, row.head? ≠ some '>') →
      (∀ i, caret[i]? = some '^' ↔ i = offset) →
      Marks (before ++ marked :: caret :: behind) marked offset

/-- The bracket that a fault is about. -/
inductive Fault.Concerns (c : Char) : Fault → Prop
  | unmatched : Concerns c (.unmatched (String.ofList [c]))
  | emptyLoop : c = '[' → Concerns c .emptyLoop

namespace Excerpt

/-! ## Margins -/

theorem toList_margin (marked : Bool) (number : Int) :
    (margin marked number).toList = (if marked then ['>', ' '] else [' ', ' '])
      ++ (List.replicate (4 - (toString number).length) ' ' ++ (toString number).toList)
      ++ [' ', '|', ' '] := by
  rw [margin, alignRight]
  simp only [String.toList_append, String.toList_ofList]
  cases marked <;> rfl

theorem head?_margin (marked : Bool) (number : Int) (text : List Char) :
    ((margin marked number).toList ++ text).head? = some (if marked then '>' else ' ') := by
  rw [toList_margin]
  cases marked <;> rfl

/-- A margin is longer by what its number has more than four digits. -/
theorem length_margin (marked : Bool) (number : Int) :
    (margin marked number).toList.length = 9 + ((toString number).length - 4) := by
  have hmark : (if marked then ['>', ' '] else [' ', ' ']).length = 2 := by cases marked <;> rfl
  rw [toList_margin]
  simp only [List.length_append, List.length_replicate, String.length_toList, hmark,
    List.length_cons, List.length_nil]
  omega

section
variable {c : Char}

theorem mem_margin {marked : Bool} {number : Int} (h : c ∈ (margin marked number).toList) :
    c ∈ ['>', ' ', '|', '-'] ∨ c.isDigit := by
  rw [toList_margin] at h
  simp only [List.mem_append, List.mem_replicate] at h
  rcases h with (h | ⟨-, rfl⟩ | h) | h
  · cases marked <;> simp at h <;> grind
  · simp
  · exact (Integer.mem_toString h).imp_left fun hc => by simp [hc]
  · simp at h
    grind

/-- No number, mark or bar is a line end or a bracket. -/
theorem not_mem_margin {marked : Bool} {number : Int} (hc : c = '\n' ∨ c = '[' ∨ c = ']') :
    c ∉ (margin marked number).toList := by
  intro h
  have hmem := mem_margin h
  rcases hc with rfl | rfl | rfl <;> revert hmem <;> decide

end

theorem surplus_eq_zero_iff {l : Location} : l.surplus = 0 ↔ l.line < 10000 := by
  have hlength : (toString l.line).length ≤ 4 ↔ l.line < 10 ^ 4 := by
    rw [Nat.toString_eq_ofList_toDigits, String.length_ofList]
    exact Nat.length_toDigits_le_iff (by omega) (by omega)
  rw [Location.surplus]
  omega

/-! ## Rows -/

theorem mem_range_iff {first last n : Int} : n ∈ range first last ↔ first ≤ n ∧ n ≤ last := by
  simp only [range, List.mem_map, List.mem_range]
  constructor
  · rintro ⟨k, hk, rfl⟩
    omega
  · intro h
    exact ⟨(n - first).toNat, by omega, by omega⟩

theorem nodup_range (first last : Int) : (range first last).Nodup :=
  List.nodup_range.map fun a b h => by simpa using h

section
variable {lines : List (List Char)} {marked column : Int} {numbers : List Int} {row : List Char}

theorem rows_self (lines : List (List Char)) (marked column : Int) :
    rows lines marked column marked
      = [margin true marked ++ String.ofList (lines.getD (marked - 1).toNat []),
        caretLine column] := by
  rw [rows, if_pos rfl]

theorem rows_of_ne {number : Int} (h : number ≠ marked) :
    rows lines marked column number
      = [margin false number ++ String.ofList (lines.getD (number - 1).toNat [])] := by
  rw [rows, if_neg h]

/-- The rows of other lines have no mark. -/
theorem head?_of_mem_rows (hnumbers : marked ∉ numbers)
    (h : row ∈ (numbers.flatMap (rows lines marked column)).map String.toList) :
    row.head? = some ' ' := by
  obtain ⟨text, htext, rfl⟩ := List.mem_map.1 h
  obtain ⟨number, hnumber, hrow⟩ := List.mem_flatMap.1 htext
  have hne : number ≠ marked := by
    rintro rfl
    exact hnumbers hnumber
  rw [rows_of_ne hne, List.mem_singleton] at hrow
  rw [hrow, String.toList_append]
  exact head?_margin false number _

end

theorem getElem?_concat_iff {c : Char} {front : List Char} (h : c ∉ front) (i : Nat) :
    (front ++ [c])[i]? = some c ↔ i = front.length := by
  rcases Nat.lt_trichotomy i front.length with hlt | rfl | hlt
  · rw [List.getElem?_append_left hlt]
    exact iff_of_false (fun hget => h (List.mem_of_getElem? hget)) (Nat.ne_of_lt hlt)
  · simp
  · rw [List.getElem?_eq_none (by simp; omega)]
    exact iff_of_false (by simp) (Nat.ne_of_gt hlt)

/-- The row of the caret has no other caret. -/
theorem getElem?_caretLine_iff (column i : Nat) :
    (caretLine (column + 1)).toList[i]? = some '^' ↔ i = 9 + column := by
  have hlist : (caretLine (column + 1)).toList
      = "       | ".toList ++ List.replicate column ' ' ++ ['^'] := by
    rw [caretLine]
    simp
  have hlength : ("       | ".toList ++ List.replicate column ' ').length = 9 + column := by
    simp
    omega
  rw [hlist, getElem?_concat_iff (by simp), hlength]

/-- **An excerpt marks the line that it is made for**, and has its caret in the column. -/
theorem marks_build (before : List (List Char)) (text : List Char) (behind : List (List Char))
    (column : Nat) :
    Marks ((build (before ++ text :: behind) (before.length + 1) (column + 1) 1).map String.toList)
      ((margin true (before.length + 1)).toList ++ text) (9 + column) := by
  have hmarked : max 1 (min ((before.length : Int) + 1) (before ++ text :: behind).length)
      = before.length + 1 := by
    rw [List.length_append, List.length_cons]
    omega
  unfold build
  simp only [hmarked]
  generalize hfirst : max 1 ((before.length : Int) + 1 - 1) = first
  generalize hlast : min ((before ++ text :: behind).length : Int) (before.length + 1 + 1) = last
  have hmem : (before.length + 1 : Int) ∈ range first last := by
    rw [mem_range_iff, ← hfirst, ← hlast, List.length_append, List.length_cons]
    omega
  -- the number of the line comes once, so the rows above and below are those of other lines
  obtain ⟨above, below, hrange⟩ := List.append_of_mem hmem
  have hnodup := nodup_range first last
  rw [hrange, List.nodup_append, List.nodup_cons] at hnodup
  obtain ⟨-, ⟨hbelow, -⟩, habove⟩ := hnodup
  have habove' : (before.length + 1 : Int) ∉ above := fun h => habove _ h _ List.mem_cons_self rfl
  have hline : (before ++ text :: behind).getD ((before.length : Int) + 1 - 1).toNat [] = text := by
    simp
  rw [hrange, List.flatMap_append, List.flatMap_cons, rows_self, hline, List.map_append,
    List.map_append, List.map_cons, List.map_singleton, String.toList_append,
    String.toList_ofList]
  refine .intro (head?_margin true _ text) (fun row hrow => ?_)
    fun i => getElem?_caretLine_iff column i
  have hblank : row.head? = some ' ' := by
    rcases List.mem_append.1 hrow with h | h
    · exact head?_of_mem_rows habove' h
    · rcases List.mem_cons.1 h with rfl | h
      · rw [caretLine, String.toList_append, String.toList_append]
        rfl
      · exact head?_of_mem_rows hbelow h
  rw [hblank]
  decide

section
variable {lines : List (List Char)} {line column around : Int}

/-- The rows of an excerpt are rows, as no line has a line end in it. -/
theorem newline_not_mem_build (h : ∀ l ∈ lines, '\n' ∉ l) :
    ∀ row ∈ (build lines line column around).map String.toList, '\n' ∉ row := by
  have htext (n : Nat) : '\n' ∉ lines.getD n [] := by
    rw [List.getD_eq_getElem?_getD]
    cases hget : lines[n]? with
    | none => exact List.not_mem_nil
    | some l => exact h l (List.mem_of_getElem? hget)
  have hmargin (marked : Bool) (number : Int) (n : Nat) :
      '\n' ∉ (margin marked number ++ String.ofList (lines.getD n [])).toList := by
    rw [String.toList_append, String.toList_ofList, List.mem_append, not_or]
    exact ⟨not_mem_margin (.inl rfl), htext n⟩
  intro row hrow
  obtain ⟨text, hmem, rfl⟩ := List.mem_map.1 hrow
  obtain ⟨number, -, hmem⟩ := List.mem_flatMap.1 hmem
  unfold rows at hmem
  simp only at hmem
  split at hmem
  · rcases List.mem_cons.1 hmem with rfl | hmem
    · exact hmargin true number _
    · rw [List.mem_singleton] at hmem
      rw [hmem, caretLine]
      simp
  · rw [List.mem_singleton] at hmem
    rw [hmem]
    exact hmargin false number _

theorem linesOf_excerpt (h : ∀ l ∈ lines, '\n' ∉ l) (hne : build lines line column around ≠ []) :
    linesOf (excerpt lines line column around).toList
      = (build lines line column around).map String.toList := by
  rw [excerpt, String.toList_intercalate]
  exact List.splitOn_intercalate '\n' (newline_not_mem_build h) (by simpa using hne)

end

section
variable {rows : List (List Char)} {marked marked' : List Char} {offset offset' : Nat}

/-- The marked row is the first one with a mark. -/
theorem Marks.exists_dropWhile (h : Marks rows marked offset) :
    ∃ caret behind, rows.dropWhile (·.head? != some '>') = marked :: caret :: behind ∧
      ∀ i, caret[i]? = some '^' ↔ i = offset := by
  cases h with
  | @intro before behind _ caret _ hmarked hrest hcaret =>
    have hbefore : ∀ row ∈ before, (row.head? != some '>') = true := by
      intro row hrow
      simpa using hrest row (List.mem_append_left _ hrow)
    refine ⟨caret, behind, ?_, hcaret⟩
    rw [List.dropWhile_append_of_pos hbefore, List.dropWhile_cons_of_neg (by simp [hmarked])]

/-- One row is marked, and one offset has a caret. -/
theorem Marks.unique (h : Marks rows marked offset) (h' : Marks rows marked' offset') :
    marked = marked' ∧ offset = offset' := by
  obtain ⟨caret, behind, hrows, hcaret⟩ := h.exists_dropWhile
  obtain ⟨caret', behind', hrows', hcaret'⟩ := h'.exists_dropWhile
  rw [hrows] at hrows'
  cases hrows'
  exact ⟨rfl, (hcaret' offset).1 ((hcaret offset).2 rfl)⟩

theorem Marks.ne_nil (h : Marks rows marked offset) : rows ≠ [] := by
  cases h
  simp

end

/-! ## The bracket to blame -/

/-- The bracket at a position stands on the marked row, as many places right of the caret as the
number of the line is too long. So above the caret is what stands so many places before it. -/
theorem exists_marks {text : List Char} {p : Nat} {c : Char} {l : Location}
    (hl : Location.ofPosition text p = l) (h : text[p]? = some c) (hc : c = '[' ∨ c = ']') :
    ∃ marked offset,
      Marks (linesOf (excerpt (linesOf text) l.line l.column 1).toList) marked offset ∧
      marked[offset + l.surplus]? = some c ∧
      (marked[offset]? = some c ↔
        l.line < 10000 ∨ (l.surplus : Int) < l.column ∧ text[p - l.surplus]? = some c) := by
  have hc' : c ≠ '\n' := by rintro rfl; simp at hc
  obtain ⟨before, row, behind, column, hlines, hloc, hle, hget⟩ := exists_line_of_getElem? h hc'
  have hsurplus := surplus_eq_zero_iff (l := l)
  have hcolumn : l.column = column + 1 := by rw [← hl, hloc]
  have hline : l.line = before.length + 1 := by rw [← hl, hloc]
  have hlength : (margin true l.line).toList.length = 9 + l.surplus := length_margin true l.line
  have hmarks := marks_build before row behind column
  rw [← hlines, ← hcolumn, ← Int.natCast_add_one, ← hline] at hmarks
  have hne : build (linesOf text) l.line l.column 1 ≠ [] := by simpa using hmarks.ne_nil
  rw [linesOf_excerpt (fun _ => newline_not_mem_of_mem) hne]
  refine ⟨_, _, hmarks, ?_, ?_⟩
  · have hplace : 9 + column + l.surplus - (9 + l.surplus) = column - 0 := by omega
    rw [List.getElem?_append_right (by omega), hlength, hplace, hget 0 (Nat.zero_le column)]
    exact h
  · rcases Nat.lt_or_ge column l.surplus with hlt | hge
    · have hmargin : ((margin true l.line).toList ++ row)[9 + column]? ≠ some c := by
        rw [List.getElem?_append_left (by omega)]
        exact fun hmem => not_mem_margin (.inr hc) (List.mem_of_getElem? hmem)
      exact iff_of_false hmargin (by omega)
    · have hplace : 9 + column - (9 + l.surplus) = column - l.surplus := by omega
      rw [List.getElem?_append_right (by omega), hlength, hplace, hget l.surplus hge]
      constructor
      · intro hsame
        exact .inr ⟨by omega, hsame⟩
      · rintro (hshort | ⟨-, hsame⟩)
        · rw [hsurplus.2 hshort]
          exact h
        · exact hsame

end Excerpt

/-! ## Errors -/

/-- The caret of the report is right below the character. -/
def Diagnostic.Points (d : Diagnostic) (c : Char) : Prop :=
  ∃ marked offset, Excerpt.Marks (linesOf d.context.toList) marked offset ∧ marked[offset]? = some c

section
variable {text : List Char} {e : SourceError} {memory : Memory} {d : Diagnostic} {p : Nat}
  {c : Char}

/-- What is to blame is a bracket of the text. -/
theorem Blames.exists_bracket (h : Blames text e) :
    ∃ (p : Nat) (c : Char), e.position = p ∧ text[p]? = some c ∧ (c = '[' ∨ c = ']') ∧
      e.fault.Concerns c := by
  cases h with
  | unopened hk _ _ => exact ⟨_, ']', rfl, hk, .inr rfl, .unmatched⟩
  | cancelling hcancels _ =>
    obtain ⟨a, _, hj, -, ha, -⟩ := hcancels.1
    obtain rfl : a = '[' := by simpa [textBrackets] using ha
    exact ⟨_, '[', rfl, hj, .inl rfl, .emptyLoop rfl⟩
  | unclosed hj _ _ _ => exact ⟨_, '[', rfl, hj, .inl rfl, .unmatched⟩

theorem report_eq_ok (h : e.report text memory = .ok d) : d = e.diagnose text := by
  unfold SourceError.report at h
  simp only at h
  split at h <;> cases h
  rfl

/-- The context marks one row, with the bracket on it, and when the caret is below the bracket. -/
theorem points_iff (hd : e.report text memory = .ok d) (hposition : e.position = p)
    (h : text[p]? = some c) (hc : c = '[' ∨ c = ']') :
    (∃ marked offset, Excerpt.Marks (linesOf d.context.toList) marked offset ∧
      marked[offset + d.location.surplus]? = some c) ∧
    (d.Points c ↔ d.location.line < 10000 ∨
      (d.location.surplus : Int) < d.location.column ∧ text[p - d.location.surplus]? = some c) := by
  have hlocation : Location.ofPosition text p = d.location := by
    rw [report_eq_ok hd, ← hposition]
    rfl
  have hcontext : d.context = excerpt (linesOf text) d.location.line d.location.column 1 := by
    rw [report_eq_ok hd]
    rfl
  obtain ⟨marked, offset, hmarks, hculprit, hiff⟩ := Excerpt.exists_marks hlocation h hc
  rw [← hcontext] at hmarks
  refine ⟨⟨marked, offset, hmarks, hculprit⟩, ?_⟩
  rw [← hiff]
  constructor
  · rintro ⟨marked', offset', hmarks', hpoints⟩
    obtain ⟨rfl, rfl⟩ := hmarks.unique hmarks'
    exact hpoints
  · intro hpoints
    exact ⟨marked, offset, hmarks, hpoints⟩

end

/-- **The caret is below the bracket to blame**, or as many places left of it as the number of the
line has more than four digits, which shows unless the same bracket stands there. -/
theorem caret_points_iff {level : Int} {text : List Char} {r : Rejection} {memory : Memory}
    {d : Diagnostic} (hr : compile level text = .error r)
    (hd : r.error.report text memory = .ok d) :
    ∃ (p : Nat) (c : Char), r.error.position = p ∧ text[p]? = some c ∧ r.error.fault.Concerns c ∧
      (∃ marked offset, Excerpt.Marks (linesOf d.context.toList) marked offset ∧
        marked[offset + d.location.surplus]? = some c) ∧
      (d.Points c ↔ d.location.line < 10000 ∨
        (d.location.surplus : Int) < d.location.column ∧
          text[p - d.location.surplus]? = some c) := by
  obtain ⟨p, c, hposition, hget, hc, hfault⟩ := (compile_error_iff.1 ⟨r.count, hr⟩).exists_bracket
  obtain ⟨hmarks, hiff⟩ := points_iff hd hposition hget hc
  exact ⟨p, c, hposition, hget, hfault, hmarks, hiff⟩

/-- A bracket on the second of three lines. -/
theorem caret_points_iff_middle :
    ∃ (text : List Char) (r : Rejection) (d : Diagnostic),
      text = ['+', '\n', '[', '-', ']', ' ', ']', '\n', '+'] ∧ compile 1 text = .error r ∧
      r.error.report text = .ok d ∧ d.location = ⟨2, 5⟩ ∧ r.error.position = (6 : Nat) ∧
      d.Points ']' := by
  have hr : compile 1 ['+', '\n', '[', '-', ']', ' ', ']', '\n', '+']
      = .error ⟨⟨.unmatched "]", 6⟩, ⟨1, 1⟩⟩ := rfl
  have hd : ∃ d, SourceError.report ⟨.unmatched "]", 6⟩
        ['+', '\n', '[', '-', ']', ' ', ']', '\n', '+'] = .ok d ∧ d.location = ⟨2, 5⟩ :=
    ⟨_, rfl, rfl⟩
  obtain ⟨d, hd, hlocation⟩ := hd
  obtain ⟨p, c, hposition, hget, -, -, hiff⟩ := caret_points_iff hr hd
  obtain rfl : p = 6 := by
    have hsix : (6 : Int) = p := hposition
    omega
  obtain rfl : ']' = c := Option.some_inj.1 hget
  exact ⟨_, _, d, rfl, hr, hd, hlocation, rfl, hiff.2 (.inl (by rw [hlocation]; decide))⟩

/-! ## A bracket behind empty lines -/

section
variable (n : Nat)

theorem linesOf_replicate_newline :
    linesOf (List.replicate n '\n') = List.replicate n [] ++ [[]] := by
  induction n with
  | zero => rfl
  | succ n ih => rw [List.replicate_succ, linesOf_cons_newline, ih, ← List.cons_append,
      ← List.replicate_succ]

theorem getElem?_behind_newlines : (List.replicate n '\n' ++ [']'])[n]? = some ']' := by
  simp

theorem blames_behind_newlines :
    Blames (List.replicate n '\n' ++ [']']) ⟨.unmatched "]", n⟩ := by
  refine .unopened (getElem?_behind_newlines n) (fun j hpair => ?_) fun k hk hculprit => ?_
  · obtain ⟨a, _, hj, -, ha, -⟩ := hpair
    have hmem := List.mem_of_getElem? hj
    obtain rfl : a = '[' := by simpa [textBrackets] using ha
    simp at hmem
  · have hget := hculprit.1
    rw [List.getElem?_append_left (by simpa using hk), List.getElem?_replicate, if_pos hk] at hget
    simp at hget

theorem ofPosition_behind_newlines :
    Location.ofPosition (List.replicate n '\n' ++ [']']) n = ⟨n + 1, 1⟩ := by
  rw [Location.ofPosition_of_le _ (by simp), List.take_left' (by simp),
    foldl_advance (linesOf_replicate_newline n), List.length_replicate]
  rfl

end

/-- From line 10000 on, the caret misses a bracket in the first column. -/
theorem not_points_behind_newlines (level : Int) {n : Nat} (hn : 9999 ≤ n) :
    ∃ r d, compile level (List.replicate n '\n' ++ [']']) = .error r ∧
      r.error.report (List.replicate n '\n' ++ [']']) = .ok d ∧ r.error.position = n ∧
      ¬ d.Points ']' := by
  have hlocation := ofPosition_behind_newlines n
  have hbracket := getElem?_behind_newlines n
  have hblames := blames_behind_newlines n
  generalize List.replicate n '\n' ++ [']'] = text at hlocation hbracket hblames ⊢
  obtain ⟨count, hr⟩ := (compile_error_iff.2 hblames : ∃ count, compile level text = _)
  have hd : SourceError.report ⟨.unmatched "]", n⟩ text
      = .ok (SourceError.diagnose ⟨.unmatched "]", n⟩ text) := by
    have hnone : Excerpt.capacityError? .unlimited (linesOf text) 1 1 = none := by
      unfold Excerpt.capacityError?
      split <;> rfl
    unfold SourceError.report
    simp only [hlocation, hnone]
  refine ⟨_, _, hr, hd, rfl, fun hpoints => ?_⟩
  have hiff := (points_iff hd rfl hbracket (.inr rfl)).2
  rw [show (SourceError.diagnose ⟨.unmatched "]", n⟩ text).location = ⟨n + 1, 1⟩
    from hlocation] at hiff
  rcases hiff.1 hpoints with hline | ⟨hsurplus, -⟩
  · simp only at hline
    omega
  · have hzero : Location.surplus ⟨n + 1, 1⟩ = 0 := by simpa using hsurplus
    have hline := Excerpt.surplus_eq_zero_iff.1 hzero
    simp only at hline
    omega

/-- **The caret can miss the bracket**: on line 10000 it is one place left of it. -/
theorem not_forall_caret_points :
    ¬ ∀ (level : Int) (text : List Char) (r : Rejection) (d : Diagnostic),
      compile level text = .error r → r.error.report text = .ok d →
      ∃ (p : Nat) (c : Char), r.error.position = p ∧ text[p]? = some c ∧ d.Points c := by
  intro h
  obtain ⟨r, d, hr, hd, hposition, hmiss⟩ := not_points_behind_newlines 1 (Nat.le_refl 9999)
  obtain ⟨p, c, hp, hget, hpoints⟩ := h 1 _ r d hr hd
  obtain rfl : p = 9999 := Int.ofNat_inj.1 (hp.symm.trans hposition)
  rw [getElem?_behind_newlines] at hget
  obtain rfl : ']' = c := Option.some_inj.1 hget
  exact hmiss hpoints

end TapeLang
