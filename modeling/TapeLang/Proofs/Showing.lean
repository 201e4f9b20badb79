import Mathlib
import TapeLang.Instruction.Listing
import TapeLang.Proofs.Enclosing
import TapeLang.Proofs.Lengths
import TapeLang.Proofs.Pointing
import TapeLang.Proofs.WellFormed

/-!
# What a listing shows

A listing tells one program from another, whether or not its brackets match: blanks end at the text
of an instruction, the text gives the kind and the argument, and the number of lines gives the width
of the indices (`listing_inj`). In the listing of a program that the compiler makes, an instruction
is indented by the loops around it (`listing_faithful`), since the depth that the listing counts is
their number (`Brackets.Nested.ncard_around`). No argument of such a program is longer than its text
is, so there is a listing (`listing?_of_compile`).
-/

set_option autoImplicit false

namespace TapeLang

/-! ## The text of an instruction -/

theorem Kind.name_inj {k l : Kind} (h : k.name = l.name) : k = l := by
  have hsame := ofName?_name k
  rw [h, ofName?_name] at hsame
  exact (Option.some_inj.1 hsame).symm

theorem signed_inj {m n : Int} (h : signed m = signed n) : m = n := by
  have hplus {m n : Int} (h : toString m = "+" ++ toString n) : False := by
    have hmem : '+' ∈ (toString m).toList := by simp [h]
    have hcase := Integer.mem_toString hmem
    revert hcase
    decide
  unfold signed at h
  split at h <;> split at h
  · exact Int.repr_inj.1 h
  · exact (hplus h).elim
  · exact (hplus h.symm).elim
  · exact Int.repr_inj.1 ((String.append_right_inj "+").1 h)

namespace Instruction

variable {i j : Instruction}

/-- The number that the text shows. -/
def number (i : Instruction) : String :=
  if i.kind.isSigned then signed i.arg else toString i.arg

theorem toList_text (i : Instruction) : i.text.toList = i.kind.name.toList
    ++ if i.kind = .clear then [] else '(' :: (i.number.toList ++ [')']) := by
  unfold text number
  split <;> simp

/-- The name is what stands before the parenthesis. -/
theorem takeWhile_text (i : Instruction) :
    i.text.toList.takeWhile (· ≠ '(') = i.kind.name.toList := by
  have hname : ∀ c ∈ i.kind.name.toList, decide (c ≠ '(') = true := by
    cases i.kind <;> simp [Kind.name]
  rw [toList_text, List.takeWhile_append_of_pos hname]
  split <;> simp

theorem number_inj (hkind : i.kind = j.kind) (h : i.number = j.number) : i = j := by
  obtain ⟨kind, m⟩ := i
  obtain ⟨_, n⟩ := j
  obtain rfl := hkind
  unfold number at h
  simp only at h
  split at h
  · rw [signed_inj h]
  · rw [Int.repr_inj.1 h]

/-- **The text of an instruction tells it**, unless it clears with an argument, which does not
show. -/
theorem text_inj (hi : i.kind = .clear → i.arg = 0) (hj : j.kind = .clear → j.arg = 0)
    (h : i.text = j.text) : i = j := by
  have hkind : i.kind = j.kind := by
    have hname := takeWhile_text i
    rw [h, takeWhile_text] at hname
    exact Kind.name_inj (String.toList_inj.1 hname.symm)
  have hlist := congrArg String.toList h
  rw [toList_text, toList_text, hkind] at hlist
  have hrest := List.append_cancel_left hlist
  by_cases hclear : j.kind = .clear
  · have hi₀ := hi (hkind.trans hclear)
    have hj₀ := hj hclear
    obtain ⟨_, _⟩ := i
    obtain ⟨_, _⟩ := j
    simp_all
  · rw [if_neg hclear, if_neg hclear] at hrest
    have hnumber := List.append_cancel_right (List.cons.inj hrest).2
    exact number_inj hkind (String.toList_inj.1 hnumber)

theorem head?_text (i : Instruction) : i.text.toList.head? ≠ some ' ' := by
  rw [toList_text]
  cases i.kind <;> simp [Kind.name]

theorem newline_not_mem_text (i : Instruction) : '\n' ∉ i.text.toList := by
  have hname : '\n' ∉ i.kind.name.toList := by
    cases i.kind <;> decide
  have hnumber : '\n' ∉ i.number.toList := by
    have hdigits := Integer.newline_not_mem_toString i.arg
    unfold number signed
    split
    · split
      · exact hdigits
      · rw [String.toList_append, List.mem_append, not_or]
        exact ⟨by decide, hdigits⟩
    · exact hdigits
  rw [toList_text, List.mem_append, not_or]
  refine ⟨hname, ?_⟩
  split
  · exact List.not_mem_nil
  · simp [hnumber]

end Instruction

/-! ## Lines -/

namespace Listing

variable {width index : Nat} {depth depth' : Int} {i j : Instruction} {p q : Program}

theorem toList_line (width index : Nat) (depth : Int) (i : Instruction) :
    (line width index depth i).toList = (alignRight width (toString index) ++ "  ").toList
      ++ (List.replicate (2 * depth.toNat) ' ' ++ i.text.toList) := by
  rw [line, String.toList_append, String.toList_append, String.toList_ofList, List.append_assoc]

/-- The text of an instruction is what follows the blanks. -/
theorem dropWhile_indented (n : Nat) (i : Instruction) :
    (List.replicate n ' ' ++ i.text.toList).dropWhile (· == ' ') = i.text.toList := by
  rw [List.dropWhile_append_of_pos (by simp), List.dropWhile_eq_self_iff]
  intro hlen hblank
  refine i.head?_text ?_
  rw [List.head?_eq_getElem?, List.getElem?_eq_getElem hlen, eq_of_beq hblank]

/-- A line tells the instruction, at whatever depth. -/
theorem line_inj (h : line width index depth i = line width index depth' j) : i.text = j.text := by
  have hlist := congrArg String.toList h
  rw [toList_line, toList_line] at hlist
  have hrest := congrArg (List.dropWhile (· == ' ')) (List.append_cancel_left hlist)
  rw [dropWhile_indented, dropWhile_indented] at hrest
  exact String.toList_inj.1 hrest

theorem length_linesFrom : (linesFrom width index depth p).length = p.length := by
  induction p generalizing index depth with
  | nil => rfl
  | cons i p ih => rw [linesFrom, List.length_cons, ih, List.length_cons]

theorem linesFrom_inj (hp : ∀ i ∈ p, i.kind = .clear → i.arg = 0)
    (hq : ∀ i ∈ q, i.kind = .clear → i.arg = 0)
    (h : linesFrom width index depth p = linesFrom width index depth' q) : p = q := by
  induction p generalizing q index depth depth' with
  | nil =>
    have hlength := congrArg List.length h
    rw [length_linesFrom, length_linesFrom] at hlength
    exact (List.length_eq_zero_iff.1 hlength.symm).symm
  | cons i p ih =>
    cases q with
    | nil => cases h
    | cons j q =>
      obtain ⟨hline, hrest⟩ := List.cons.inj h
      rw [List.forall_mem_cons] at hp hq
      rw [Instruction.text_inj hp.1 hq.1 (line_inj hline), ih hp.2 hq.2 hrest]

theorem depthAfter_shownDepth (depth : Int) (i : Instruction) :
    depthAfter (shownDepth depth i) i = depth + loopBrackets.depth [i] := by
  obtain ⟨kind, arg⟩ := i
  cases kind <;> simp [depthAfter, shownDepth, Brackets.depth, loopBrackets]
  omega

/-- The line of an instruction shows the depth of what is before it. -/
theorem getElem?_linesFrom (n : Nat) : (linesFrom width index depth p)[n]? = p[n]?.map fun i =>
    line width (index + n) (shownDepth (depth + loopBrackets.depth (p.take n)) i) i := by
  induction p generalizing index depth n with
  | nil => rfl
  | cons i p ih =>
    cases n with
    | zero => simp [linesFrom]
    | succ n =>
      have hdepth : loopBrackets.depth (i :: p.take n) = _ := Brackets.depth_cons
      rw [linesFrom, List.getElem?_cons_succ, List.getElem?_cons_succ, ih, depthAfter_shownDepth,
        List.take_succ_cons, hdepth, Int.add_assoc, Nat.add_assoc, Nat.add_comm 1]

theorem newline_not_mem_line (width index : Nat) (depth : Int) (i : Instruction) :
    '\n' ∉ (line width index depth i).toList := by
  have hindex : '\n' ∉ (toString index).toList := Integer.newline_not_mem_toString index
  rw [toList_line, alignRight]
  simp only [String.toList_append, String.toList_ofList, List.mem_append, List.mem_replicate,
    not_or]
  exact ⟨⟨⟨by simp, hindex⟩, by decide⟩, by simp, i.newline_not_mem_text⟩

theorem newline_not_mem_linesFrom {text : String} (h : text ∈ linesFrom width index depth p) :
    '\n' ∉ text.toList := by
  obtain ⟨n, hn⟩ := List.mem_iff_getElem?.1 h
  rw [getElem?_linesFrom] at hn
  obtain ⟨i, -, rfl⟩ := Option.map_eq_some_iff.1 hn
  exact newline_not_mem_line _ _ _ i

/-- The lines show a program: each an instruction, with its index aligned with the last one, two
blanks, and two more for every loop around. -/
structure Shows (lines : List String) (p : Program) : Prop where
  length : lines.length = p.length
  newline_not_mem : ∀ line ∈ lines, '\n' ∉ line.toList
  line : ∀ (n : Nat) (i : Instruction), p[n]? = some i →
    lines[n]? = some (alignRight (toString (p.length - 1)).length (toString n) ++ "  "
      ++ String.ofList (List.replicate (2 * (loopBrackets.around p n).ncard) ' ') ++ i.text)
  /-- The ends of a loop are indented alike. -/
  alike : ∀ j k, loopBrackets.Pairs p j k →
    (loopBrackets.around p j).ncard = (loopBrackets.around p k).ncard

/-- If the loops match, the depth shown is the number of loops around. -/
theorem shownDepth_eq (h : loopBrackets.Nested p) {n : Nat} (hi : p[n]? = some i) :
    (shownDepth (0 + loopBrackets.depth (p.take n)) i).toNat = (loopBrackets.around p n).ncard := by
  have hdepth := h.ncard_around hi
  have hcloses : loopBrackets.closes i = true ↔ i.kind = .endLoop := beq_iff_eq
  unfold shownDepth
  by_cases hend : i.kind = .endLoop
  · rw [if_pos (hcloses.2 hend)] at hdepth
    rw [if_pos hend]
    omega
  · rw [if_neg (mt hcloses.1 hend)] at hdepth
    rw [if_neg hend]
    omega

/-- **A program with matching loops is shown by the lines of its listing.** -/
theorem shows_of_nested (h : loopBrackets.Nested p) : Shows (listingLines p) p := by
  refine ⟨length_linesFrom, fun _ => newline_not_mem_linesFrom, fun n i hi => ?_,
    fun j k => h.ncard_around_of_pairs⟩
  rw [listingLines, getElem?_linesFrom, hi, Option.map_some, line, shownDepth_eq h hi,
    Nat.zero_add]

theorem linesOf_listing (hp : p ≠ []) :
    linesOf (listing p).toList = (listingLines p).map String.toList := by
  have hne : listingLines p ≠ [] := by
    intro hnil
    have hlength := congrArg List.length hnil
    rw [listingLines, length_linesFrom] at hlength
    exact hp (List.length_eq_zero_iff.1 hlength)
  rw [listing, String.toList_intercalate]
  refine List.splitOn_intercalate '\n' (fun line hline => ?_) (by simpa using hne)
  obtain ⟨text, htext, rfl⟩ := List.mem_map.1 hline
  exact newline_not_mem_linesFrom htext

/-- The listing of a program with an instruction has a character. -/
theorem toList_listing_ne_nil (hp : p ≠ []) : (listing p).toList ≠ [] := by
  intro hnil
  obtain ⟨i, p, rfl⟩ := List.exists_cons_of_ne_nil hp
  have hlines := linesOf_listing (List.cons_ne_nil i p)
  rw [hnil, listingLines, linesFrom, List.map_cons] at hlines
  have hempty := (List.cons.inj hlines).1
  rw [toList_line] at hempty
  simp at hempty

end Listing

open Listing

variable {p q : Program}

/-- **A listing tells the program**, if no `clear` has an argument. -/
theorem listing_inj (hp : ∀ i ∈ p, i.kind = .clear → i.arg = 0)
    (hq : ∀ i ∈ q, i.kind = .clear → i.arg = 0) (h : listing p = listing q) : p = q := by
  by_cases hp₀ : p = []
  · by_contra hne
    have hq₀ : q ≠ [] := fun hnil => hne (hp₀.trans hnil.symm)
    refine toList_listing_ne_nil hq₀ ?_
    rw [← h, hp₀]
    rfl
  · have hq₀ : q ≠ [] := by
      rintro rfl
      refine toList_listing_ne_nil hp₀ ?_
      rw [h]
      rfl
    have hlist := congrArg (linesOf ∘ String.toList) h
    simp only [Function.comp_apply] at hlist
    rw [linesOf_listing hp₀, linesOf_listing hq₀] at hlist
    have hlines : listingLines p = listingLines q :=
      List.map_injective_iff.2 (fun _ _ => String.toList_inj.1) hlist
    have hlength := congrArg List.length hlines
    rw [listingLines, listingLines, length_linesFrom, length_linesFrom] at hlength
    unfold listingLines at hlines
    rw [hlength] at hlines
    exact linesFrom_inj hp hq hlines

/-- What is compiled has a listing, if the length of its text can be written. -/
theorem listing?_of_compile {level : Int} {text : List Char} {c : Compilation}
    (h : compile level text = .ok c) (htext : text.length < 10 ^ Integer.maxDigits) :
    listing? c.program = some (listing c.program) := by
  refine if_pos (List.all_eq_true.2 fun i hi => ?_)
  have hcount : commandCount text ≤ text.length := List.countP_le_length
  have harg : Integer.isWritable i.arg := by
    rw [Integer.isWritable_iff]
    exact (natAbs_arg_le h hi).trans_lt (hcount.trans_lt htext)
  rw [Instruction.isWritable, harg, Bool.or_true]

/-- **Listings are faithful**: no two programs have the same listing, whether their loops match or
not, unless an argument of a `clear` tells them apart, which does not show; and the lines of what a
text compiles to show its instructions, indented by the loops around them. There is no listing of
numbers that cannot be written, but only a text whose length cannot be written compiles to them. -/
theorem listing_faithful :
    (∀ p q : Program, (∀ i ∈ p, i.kind = .clear → i.arg = 0) →
      (∀ i ∈ q, i.kind = .clear → i.arg = 0) → listing p = listing q → p = q) ∧
    ∀ (level : Int) (text : List Char) (c : Compilation), compile level text = .ok c →
      ∃ lines, listing c.program = "\n".intercalate lines ∧ Shows lines c.program ∧
        (text.length < 10 ^ Integer.maxDigits →
          listing? c.program = some ("\n".intercalate lines)) :=
  ⟨fun _ _ => listing_inj,
    fun _ _ _ h => ⟨_, rfl, shows_of_nested (wellFormed_of_compile h).nested,
      listing?_of_compile h⟩⟩

/-- A loop in a loop. The listing of what it compiles to is that of no other program. -/
theorem listing_faithful_nested :
    let program : Program := [⟨.beginLoop, 6⟩, ⟨.beginLoop, 3⟩, ⟨.print, 1⟩, ⟨.modify, -1⟩,
      ⟨.endLoop, 3⟩, ⟨.shift, -1⟩, ⟨.endLoop, 6⟩]
    ∃ c, compile 0 ['[', '[', '.', '-', ']', '<', ']'] = .ok c ∧ c.program = program ∧
      ∃ lines, listing? c.program = some ("\n".intercalate lines) ∧ Shows lines c.program := by
  intro program
  have hclear : ∀ i ∈ program, i.kind = .clear → i.arg = 0 := by decide
  have hcompile : ∃ c, compile 0 ['[', '[', '.', '-', ']', '<', ']'] = .ok c ∧
      listing c.program = listing program ∧ ∀ i ∈ c.program, i.kind = .clear → i.arg = 0 :=
    ⟨_, rfl, rfl, hclear⟩
  obtain ⟨c, hc, hlisting, hclear'⟩ := hcompile
  have hshort : 7 < 10 ^ Integer.maxDigits :=
    calc
      7 < 10 ^ 1 := by decide
      _ ≤ 10 ^ Integer.maxDigits := Nat.pow_le_pow_right (by decide) (by decide)
  obtain ⟨lines, -, hshows, hmade⟩ := listing_faithful.2 0 _ c hc
  exact ⟨c, hc, listing_faithful.1 c.program program hclear' hclear hlisting, lines,
    hmade hshort, hshows⟩

end TapeLang
