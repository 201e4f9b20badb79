import TapeLang.Compile

/-!
# Blocks

Code as a tree: a block is built by adding an instruction or a loop behind a shorter block, as the
compiler builds code while it reads. `Block.code` lays a block out as a program, and the stages of
compilation are functions on blocks: `Block.fold` merges and drops instructions, `Block.fuse` puts
single instructions in the place of loops, and `Block.lowered` is what a level makes of a block.
-/

set_option autoImplicit false

namespace TapeLang

/-- Code with its loops, the newest part outermost. -/
inductive Block where
  | nil
  /-- An instruction that is no jump, behind a block. -/
  | step (before : Block) (instruction : Instruction)
  /-- A loop behind a block. -/
  | loop (before body : Block)
deriving DecidableEq, Repr

namespace Block

/-- The block as a program. -/
def code : Block → List Instruction
  | nil => []
  | step b i => b.code ++ [i]
  | loop b body => b.code ++ wrapLoop body.code

/-- How many instructions a block has, jumps included. -/
def size : Block → Nat
  | nil => 0
  | step b _ => b.size + 1
  | loop b body => b.size + body.size + 2

/-- The commands that a block stands for, if each of its instructions is a command. -/
def commands : Block → List Command
  | nil => []
  | step b i => b.commands ++ [.plain i]
  | loop b body => b.commands ++ .openLoop :: body.commands ++ [.closeLoop]

/-- Every instruction outside jumps has a property. -/
def Every (p : Instruction → Prop) : Block → Prop
  | nil => True
  | step b i => b.Every p ∧ p i
  | loop b body => b.Every p ∧ body.Every p

/-- The body of every loop has a property. -/
def EveryLoop (p : Block → Prop) : Block → Prop
  | nil => True
  | step b _ => b.EveryLoop p
  | loop b body => b.EveryLoop p ∧ body.EveryLoop p ∧ p body

/-! ## Folding -/

/-- The block with one instruction behind, unless that one is idle. -/
def stepUnlessIdle (b : Block) (i : Instruction) : Block := if i.isIdle then b else b.step i

/-- Adds one instruction to a folded block. -/
def push : Block → Instruction → Block
  | step b last, i =>
    if i.kind.isFoldable && last.kind == i.kind then
      b.stepUnlessIdle ⟨i.kind, last.arg + i.arg⟩
    else (b.step last).stepUnlessIdle i
  | b, i => b.stepUnlessIdle i

/-- The block with neighbours merged and idle instructions dropped, in its loops too. -/
def fold : Block → Block
  | nil => nil
  | step b i => b.fold.push i
  | loop b body => loop b.fold body.fold

/-- The kind of the last instruction, if the block ends with one. -/
def lastKind? : Block → Option Kind
  | step _ i => some i.kind
  | nil | loop _ _ => none

/-- Nothing is left to fold. -/
def Folded : Block → Prop
  | nil => True
  | step b i => b.Folded ∧ i.isIdle = false ∧ (i.kind.isFoldable → b.lastKind? ≠ some i.kind)
  | loop b body => b.Folded ∧ body.Folded

/-- What `push` makes: it merges with the last instruction, or adds one. -/
theorem push_cases (b : Block) (i : Instruction) :
    (∃ before kind a c, b = step before ⟨kind, a⟩ ∧ i = ⟨kind, c⟩ ∧ kind.isFoldable ∧
      b.push i = before.stepUnlessIdle ⟨kind, a + c⟩) ∨
    ((i.kind.isFoldable → b.lastKind? ≠ some i.kind) ∧ b.push i = b.stepUnlessIdle i) := by
  cases b with
  | nil =>
    refine .inr ⟨fun _ hlast => ?_, rfl⟩
    cases hlast
  | loop before body =>
    refine .inr ⟨fun _ hlast => ?_, rfl⟩
    cases hlast
  | step before last =>
    obtain ⟨kind, a⟩ := last
    obtain ⟨kind', c⟩ := i
    by_cases h : kind'.isFoldable && kind == kind'
    · have hpush : (step before ⟨kind, a⟩).push ⟨kind', c⟩
          = before.stepUnlessIdle ⟨kind', a + c⟩ := if_pos h
      rw [Bool.and_eq_true, beq_iff_eq] at h
      obtain ⟨hk, rfl⟩ := h
      exact .inl ⟨before, kind, a, c, rfl, rfl, hk, hpush⟩
    · refine .inr ⟨fun hk hlast => h ?_, if_neg h⟩
      simp only [lastKind?, Option.some.injEq] at hlast
      simp [hk, hlast]

theorem folded_stepUnlessIdle {b : Block} {i : Instruction} (hb : b.Folded)
    (hi : i.kind.isFoldable → b.lastKind? ≠ some i.kind) : (b.stepUnlessIdle i).Folded := by
  unfold stepUnlessIdle
  split
  · exact hb
  · rename_i h
    exact ⟨hb, Bool.not_eq_true _ ▸ h, hi⟩

theorem folded_push {b : Block} (hb : b.Folded) (i : Instruction) : (b.push i).Folded := by
  rcases b.push_cases i with ⟨before, kind, a, c, rfl, rfl, -, hpush⟩ | ⟨hi, hpush⟩
  · rw [hpush]
    obtain ⟨hbefore, -, hlast⟩ := hb
    exact folded_stepUnlessIdle hbefore hlast
  · rw [hpush]
    exact folded_stepUnlessIdle hb hi

theorem folded_fold (b : Block) : b.fold.Folded := by
  induction b with
  | nil => trivial
  | step b i ih => exact folded_push ih i
  | loop b body ihb ih => exact ⟨ihb, ih⟩

/-! ## Fusing -/

/-- The block with single instructions in the place of loops that have one, inner loops first. -/
def fuse : Block → Block
  | nil => nil
  | step b i => b.fuse.step i
  | loop b body =>
    match fuse? body.fuse.code with
    | some i => b.fuse.step i
    | none => loop b.fuse body.fuse

/-- What a level makes of the block of a text. -/
def lowered (level : Int) (b : Block) : Block := if 1 ≤ level then b.fold.fuse else b.fold

/-! ## Layout -/

theorem length_code (b : Block) : b.code.length = b.size := by
  induction b with
  | nil => rfl
  | step b i ih => simp [code, size, ih]
  | loop b body ihb ih => simp [code, size, ihb, ih, length_wrapLoop, Nat.add_assoc]

/-- A block without loops is told by its code. -/
theorem eq_of_isFlat {b : Block} (h : isFlat b.code) : b = b.code.foldl step nil := by
  induction b with
  | nil => rfl
  | step b i ih =>
    rw [isFlat, code, List.all_append, Bool.and_eq_true] at h
    rw [code, List.foldl_append, ← ih h.1]
    rfl
  | loop b body => simp [isFlat, code, wrapLoop, Kind.isLoop] at h

theorem Every.mono {p q : Instruction → Prop} (h : ∀ i, p i → q i) {b : Block} (hb : b.Every p) :
    b.Every q := by
  induction b with
  | nil => trivial
  | step b i ih => exact ⟨ih hb.1, h i hb.2⟩
  | loop b body ihb ih => exact ⟨ihb hb.1, ih hb.2⟩

theorem Folded.every {b : Block} (h : b.Folded) : b.Every fun i => i.isIdle = false := by
  induction b with
  | nil => trivial
  | step b i ih => exact ⟨ih h.1, h.2.1⟩
  | loop b body ihb ih => exact ⟨ihb h.1, ih h.2⟩

/-! ## Loops -/

section
variable {p : Block → Prop} {b : Block}

/-- The bodies of loops stand between brackets. -/
theorem everyLoop_of_commands
    (h : ∀ before body behind,
      b.commands = before ++ .openLoop :: (body.commands ++ .closeLoop :: behind) → p body) :
    b.EveryLoop p := by
  induction b with
  | nil => trivial
  | step b i ih =>
    refine ih fun before body behind hcommands => h before body (behind ++ [.plain i]) ?_
    simp [commands, hcommands]
  | loop b body ihb ih =>
    refine ⟨ihb fun before inner behind hcommands => ?_, ih fun before inner behind hcommands => ?_,
      h b.commands body [] (by simp [commands])⟩
    · refine h before inner (behind ++ .openLoop :: body.commands ++ [.closeLoop]) ?_
      simp [commands, hcommands]
    · refine h (b.commands ++ .openLoop :: before) inner (behind ++ [.closeLoop]) ?_
      simp [commands, hcommands]

/-- A block without loops is its code, command by command. -/
theorem commands_of_loopless (h : b.EveryLoop fun _ => False) :
    b.commands = b.code.map .plain := by
  induction b with
  | nil => rfl
  | step b i ih => rw [commands, code, List.map_append, ih h]; rfl
  | loop b body => exact h.2.2.elim

theorem everyLoop_stepUnlessIdle (i : Instruction) :
    (b.stepUnlessIdle i).EveryLoop p ↔ b.EveryLoop p := by
  unfold stepUnlessIdle
  split <;> exact Iff.rfl

theorem everyLoop_push (i : Instruction) : (b.push i).EveryLoop p ↔ b.EveryLoop p := by
  rcases b.push_cases i with ⟨before, kind, a, c, rfl, rfl, -, hpush⟩ | ⟨-, hpush⟩
  · rw [hpush, everyLoop_stepUnlessIdle]
    exact Iff.rfl
  · rw [hpush, everyLoop_stepUnlessIdle]

theorem everyLoop_fold : b.fold.EveryLoop p ↔ b.EveryLoop fun body => p body.fold := by
  induction b with
  | nil => exact Iff.rfl
  | step b i ih => exact (everyLoop_push i).trans ih
  | loop b body ihb ih => exact and_congr ihb (and_congr ih Iff.rfl)

end

end Block

end TapeLang
