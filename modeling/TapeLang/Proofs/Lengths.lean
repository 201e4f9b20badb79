import TapeLang.Proofs.Emitting

/-!
# Lengths

Compiling never makes a text longer: what a text compiles to can be written with as many characters
as the text has commands (`length_sourceOf_le`). So the program has no more instructions than that,
and no argument is greater (`natAbs_arg_le`); the arguments are words whenever the length of the
text is one (`isWord_arg_of_compile`).
-/

set_option autoImplicit false

namespace TapeLang

/-! ## Instructions -/

namespace Instruction

variable {kind : Kind} {a c : Int} {i : Instruction}

theorem length_commands_modify (a : Int) :
    (commands ⟨.modify, a⟩).length = a.natAbs := by
  simp only [commands, List.length_append, length_repeated]
  omega

/-- One instruction with the sum is no longer than the two. -/
theorem length_commands_add_le (hk : kind.isFoldable) :
    (commands ⟨kind, a + c⟩).length
      ≤ (commands ⟨kind, a⟩).length + (commands ⟨kind, c⟩).length := by
  cases kind with
  | modify =>
    simp only [length_commands_modify]
    omega
  | shift =>
    simp only [commands, length_moves]
    omega
  | print =>
    simp only [commands, length_repeated]
    omega
  | _ => cases hk

theorem length_commands_pos (hi : i.ArgFits) : 0 < i.commands.length := by
  obtain ⟨kind, arg⟩ := i
  cases kind <;> simp only [ArgFits] at hi <;>
    simp only [commands, List.length_append, List.length_cons, length_repeated, length_moves] <;>
    omega

/-- What replaces a loop is no longer than the loop. -/
theorem length_commands_le_of_fuse? {body : List Instruction}
    (hbody : ∀ j ∈ body, j.isIdle = false) (h : fuse? body = some i) :
    i.commands.length ≤ (sourceOf body).length + 2 := by
  rcases fuse?_eq_some h with ⟨amount, rfl, rfl⟩ | ⟨sign, distance, hi, hcode⟩
  · have hamount : amount ≠ 0 := by simpa [isIdle, Kind.isFoldable] using hbody
    have hpos : 0 < amount.natAbs := Int.natAbs_pos.2 hamount
    have hlength : (sourceOf [⟨.modify, amount⟩]).length = amount.natAbs := by
      rw [sourceOf, List.flatMap_singleton, length_commands_modify]
    rw [hlength, commands]
    simp only [List.length_cons, List.length_nil]
    omega
  · have hlength : (sourceOf body).length = sign.natAbs + 2 * distance.natAbs + 1 := by
      rcases hcode with rfl | rfl <;>
        simp only [sourceOf, goFirst, countFirst, List.flatMap_cons, List.flatMap_nil,
          List.length_append, length_commands_modify, List.length_nil,
          show ∀ d, commands ⟨.shift, d⟩ = moves d from fun _ => rfl, length_moves] <;>
        omega
    rw [hlength]
    rcases hi with ⟨rfl, rfl⟩ | ⟨rfl, rfl⟩ <;>
      simp only [commands, List.length_append, List.length_cons, List.length_nil, length_moves] <;>
      omega

end Instruction

/-! ## Blocks -/

namespace Block

/-- How many characters it takes to write the block's code. -/
def textLength (b : Block) : Nat := (sourceOf b.code).length

theorem textLength_step (b : Block) (i : Instruction) :
    (b.step i).textLength = b.textLength + i.commands.length := by
  simp [textLength, code, sourceOf]

theorem textLength_loop (b body : Block) :
    (b.loop body).textLength = b.textLength + body.textLength + 2 := by
  simp [textLength, code, sourceOf, wrapLoop, Instruction.commands]
  omega

theorem textLength_stepUnlessIdle_le (b : Block) (i : Instruction) :
    (b.stepUnlessIdle i).textLength ≤ b.textLength + i.commands.length := by
  unfold stepUnlessIdle
  split
  · exact Nat.le_add_right ..
  · rw [textLength_step]

theorem textLength_push_le (b : Block) (i : Instruction) :
    (b.push i).textLength ≤ b.textLength + i.commands.length := by
  rcases b.push_cases i with ⟨before, kind, a, c, rfl, rfl, hk, hpush⟩ | ⟨-, hpush⟩
  · have hle := textLength_stepUnlessIdle_le before ⟨kind, a + c⟩
    have hsum := Instruction.length_commands_add_le (a := a) (c := c) hk
    rw [hpush, textLength_step]
    omega
  · rw [hpush]
    exact textLength_stepUnlessIdle_le b i

theorem textLength_fold_le (b : Block) : b.fold.textLength ≤ b.textLength := by
  induction b with
  | nil => exact Nat.le_refl _
  | step b i ih =>
    have hle := textLength_push_le b.fold i
    rw [fold, textLength_step]
    omega
  | loop b body ihb ih =>
    rw [fold, textLength_loop, textLength_loop]
    omega

theorem textLength_fuse_le {b : Block} (h : b.Folded) : b.fuse.textLength ≤ b.textLength := by
  induction b with
  | nil => exact Nat.le_refl _
  | step b i ih =>
    have hle := ih h.1
    rw [fuse, textLength_step, textLength_step]
    omega
  | loop b body ihb ih =>
    have hleb := ihb h.1
    have hle := ih h.2
    unfold fuse
    split
    · rename_i i hi
      have hidle : ∀ j ∈ body.fuse.code, j.isIdle = false :=
        every_code h.2.fuse.every fun j hj => Instruction.isIdle_of_isLoop hj
      have hfused := Instruction.length_commands_le_of_fuse? hidle hi
      rw [textLength_step, textLength_loop]
      unfold textLength at *
      omega
    · rw [textLength_loop, textLength_loop]
      omega

theorem textLength_lowered_le (level : Int) (b : Block) :
    (b.lowered level).textLength ≤ b.textLength := by
  have hfold := b.textLength_fold_le
  unfold lowered
  split
  · exact Nat.le_trans (textLength_fuse_le b.folded_fold) hfold
  · exact hfold

/-- Single commands are written as one character each. -/
theorem textLength_eq {b : Block} (h : b.Every fun i => i.commands.length = 1) :
    b.textLength = b.commands.length := by
  induction b with
  | nil => rfl
  | step b i ih =>
    rw [textLength_step, ih h.1, h.2, commands, List.length_append]
    rfl
  | loop b body ihb ih =>
    rw [textLength_loop, ihb h.1, ih h.2, commands]
    simp
    omega

end Block

/-! ## Texts -/

section
variable {level : Int} {text : List Char} {c : Compilation} (h : compile level text = .ok c)
include h

/-- **Compiling never makes a text longer**, comments apart. -/
theorem length_sourceOf_le : (sourceOf c.program).length ≤ commandCount text := by
  obtain ⟨b, hb, -, hcode⟩ := compile_eq_ok h
  have hsingle : b.Every fun i => i.commands.length = 1 := by
    rw [Block.every_iff, commands_of_parse? hb]
    intro i hi
    obtain ⟨ch, -, hch⟩ := List.mem_filterMap.1 hi
    unfold Command.ofChar? at hch
    split at hch <;> cases hch <;> rfl
  calc (sourceOf c.program).length
    _ = (b.lowered level).textLength := by rw [hcode]; rfl
    _ ≤ b.textLength := Block.textLength_lowered_le level b
    _ = b.commands.length := Block.textLength_eq hsingle
    _ = commandCount text := by
      rw [commands_of_parse? hb, commandsOf, commandCount, List.length_filterMap_eq_countP]

theorem length_program_le : c.program.length ≤ commandCount text := by
  have hlength : c.program.length ≤ (sourceOf c.program).length := by
    have hargs := (wellFormed_of_compile h).args
    generalize c.program = p at hargs
    induction p with
    | nil => exact Nat.le_refl _
    | cons i p ih =>
      have hpos := Instruction.length_commands_pos (hargs i List.mem_cons_self)
      have hle := ih fun j hj => hargs j (List.mem_cons_of_mem i hj)
      simp only [sourceOf, List.flatMap_cons, List.length_append, List.length_cons] at hle ⊢
      omega
  exact Nat.le_trans hlength (length_sourceOf_le h)

/-- **No argument is greater than the number of commands.** -/
theorem natAbs_arg_le {i : Instruction} (hi : i ∈ c.program) :
    i.arg.natAbs ≤ commandCount text := by
  have hp := wellFormed_of_compile h
  have hlength := length_program_le h
  obtain ⟨j, hj⟩ := List.mem_iff_getElem?.1 hi
  cases hloop : i.kind.isLoop with
  | false =>
    have hle := (hp.args i hi).natAbs_arg_le_length_commands hloop
    have hpart : i.commands.length ≤ (sourceOf c.program).length :=
      (List.sublist_flatten_of_mem (List.mem_map_of_mem hi)).length_le
    have htext := length_sourceOf_le h
    omega
  | true =>
    obtain ⟨k, l, hpair, hplace⟩ := hp.exists_pairs hj hloop
    obtain ⟨hbegin, hend, -⟩ := hp.jumps k l hpair
    have harg : i.arg = l - k := by
      rcases hplace with rfl | rfl
      · rw [Option.some_inj.1 (hj.symm.trans hbegin)]
      · rw [Option.some_inj.1 (hj.symm.trans hend)]
    have hkl := hpair.lt
    have hl := hpair.lt_length
    omega

theorem isWord_arg_of_compile (htext : (text.length : Int) < wordBound) {i : Instruction}
    (hi : i ∈ c.program) : isWord i.arg := by
  have hle := natAbs_arg_le h hi
  have hcount : commandCount text ≤ text.length := List.countP_le_length
  rw [isWord_iff]
  omega

end

end TapeLang
