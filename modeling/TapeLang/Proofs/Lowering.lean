import TapeLang.Proofs.Fusing

/-!
# Lowered code

The code of a lowered block is what the compiler has under construction: it grows by an instruction
as the block does (`Block.code_push`, `Block.lowered_step`), and a loop over it is lowered as the
block says (`lowerLoop_lowered`), or rejected if the block folds to nothing
(`lowerLoop_eq_empty_iff`).
-/

set_option autoImplicit false

namespace TapeLang

/-! ## Code under construction -/

namespace Block

/-- Code that is held newest first is pushed to as the block is. -/
theorem code_push (b : Block) (i : Instruction) :
    (b.push i).code.reverse = TapeLang.push b.code.reverse i := by
  have hcons (b : Block) (i : Instruction) :
      (b.stepUnlessIdle i).code.reverse = consUnlessIdle i b.code.reverse := by
    unfold stepUnlessIdle consUnlessIdle
    split
    · rfl
    · simp [code]
  cases b with
  | nil => exact hcons nil i
  | step b last =>
    simp only [push, code, List.reverse_append, List.reverse_singleton, List.singleton_append,
      TapeLang.push]
    split
    · exact hcons b _
    · rw [hcons, code, List.reverse_append, List.reverse_singleton, List.singleton_append]
  | loop b body =>
    have hkind : ¬ (i.kind.isFoldable && Kind.endLoop == i.kind) := by
      cases i.kind <;> simp [Kind.isFoldable]
    have hrev : (loop b body).code.reverse = ⟨.endLoop, body.code.length + 1⟩
        :: (body.code.reverse ++ ⟨.beginLoop, body.code.length + 1⟩ :: b.code.reverse) := by
      simp [code, wrapLoop]
    rw [push, hcons, hrev, TapeLang.push, if_neg hkind]
    intro before last h
    cases h

theorem lastKind?_fuse {kind : Kind} (hk : kind.isFoldable) {b : Block} :
    b.fuse.lastKind? = some kind ↔ b.lastKind? = some kind := by
  cases b with
  | nil => exact Iff.rfl
  | step b i => exact Iff.rfl
  | loop b body =>
    unfold fuse
    split
    · rename_i i hi
      have hne : i.kind ≠ kind := by
        rintro rfl
        rw [isFoldable_of_fuse? hi] at hk
        cases hk
      simp [lastKind?, hne]
    · exact Iff.rfl

theorem Folded.fuse {b : Block} (h : b.Folded) : b.fuse.Folded := by
  induction b with
  | nil => trivial
  | step b i ih =>
    obtain ⟨hb, hi, hlast⟩ := h
    exact ⟨ih hb, hi, fun hk => mt (lastKind?_fuse hk).1 (hlast hk)⟩
  | loop b body ihb ih =>
    unfold Block.fuse
    split
    · rename_i i hi
      have hk := isFoldable_of_fuse? hi
      refine ⟨ihb h.1, ?_, fun hk' => ?_⟩
      · rw [Instruction.isIdle, hk, Bool.false_and]
      · rw [hk] at hk'
        cases hk'
    · exact ⟨ihb h.1, ih h.2⟩

theorem fuse_stepUnlessIdle (b : Block) (i : Instruction) :
    (b.stepUnlessIdle i).fuse = b.fuse.stepUnlessIdle i := by
  unfold stepUnlessIdle
  split <;> rfl

/-- Fusing does not get in the way of folding. -/
theorem fuse_push (b : Block) (i : Instruction) : (b.push i).fuse = b.fuse.push i := by
  rcases b.push_cases i with ⟨before, kind, a, c, rfl, rfl, hk, hpush⟩ | ⟨hi, hpush⟩
  · rw [hpush, fuse_stepUnlessIdle]
    simp [fuse, push, hk]
  · rw [hpush, fuse_stepUnlessIdle]
    rcases b.fuse.push_cases i with ⟨before, kind, a, c, hb, rfl, hk, -⟩ | ⟨-, hpush'⟩
    · have hlast : b.fuse.lastKind? = some kind := by rw [hb]; rfl
      exact absurd ((lastKind?_fuse hk).1 hlast) (hi hk)
    · rw [hpush']

theorem folded_lowered (level : Int) (b : Block) : (b.lowered level).Folded := by
  unfold lowered
  split
  · exact b.folded_fold.fuse
  · exact b.folded_fold

theorem isPlain_fuse {b : Block} (h : b.Every Instruction.IsPlain) :
    b.fuse.Every Instruction.IsPlain := by
  induction b with
  | nil => trivial
  | step b i ih => exact ⟨ih h.1, h.2⟩
  | loop b body ihb ih =>
    unfold fuse
    split
    · rename_i i hi
      refine ⟨ihb h.1, ?_⟩
      obtain ⟨_, -, rfl⟩ | ⟨_, _, ⟨-, rfl⟩ | ⟨-, rfl⟩, -⟩ := fuse?_eq_some hi <;>
        exact ⟨rfl, Kind.noConfusion⟩
    · exact ⟨ihb h.1, ih h.2⟩

theorem isPlain_lowered (level : Int) {b : Block} (h : b.Every Instruction.IsPlain) :
    (b.lowered level).Every Instruction.IsPlain := by
  unfold lowered
  split
  · exact isPlain_fuse (isPlain_fold h)
  · exact isPlain_fold h

theorem lowered_step (level : Int) (b : Block) (i : Instruction) :
    (b.step i).lowered level = (b.lowered level).push i := by
  unfold lowered
  split
  · exact fuse_push _ i
  · rfl

/-- Folded code without jumps is not changed by folding it again. -/
theorem Folded.fold_code {b : Block} (h : b.Folded) (hflat : isFlat b.code) :
    TapeLang.fold b.code = b.code := by
  induction b with
  | nil => rfl
  | loop b body => simp [isFlat, code, wrapLoop, Kind.isLoop] at hflat
  | step b i ih =>
    obtain ⟨hb, hi, hlast⟩ := h
    rw [isFlat, code, List.all_append, Bool.and_eq_true] at hflat
    have hpush : b.push i = b.step i := by
      rcases b.push_cases i with ⟨before, kind, a, c, rfl, rfl, hk, -⟩ | ⟨-, hpush⟩
      · exact absurd rfl (hlast hk)
      · rw [hpush, stepUnlessIdle, hi]
        rfl
    rw [code, fold_append, ih hb hflat.1, List.foldl_cons, List.foldl_nil, ← code_push, hpush,
      List.reverse_reverse, code]

theorem code_fold_of_loopless {b : Block} (h : b.EveryLoop fun _ => False) :
    b.fold.code = TapeLang.fold b.code := by
  induction b with
  | nil => rfl
  | step b i ih =>
    rw [code, fold_append, ← ih h, List.foldl_cons, List.foldl_nil, ← code_push,
      List.reverse_reverse, fold]
  | loop b body => exact h.2.2.elim

theorem code_eq_nil_iff {b : Block} : b.code = [] ↔ b = nil := by
  cases b with
  | nil => simp [code]
  | step b i => simp [code]
  | loop b body => simp [code, wrapLoop]

theorem fuse_eq_nil_iff {b : Block} : b.fuse = nil ↔ b = nil := by
  cases b with
  | nil => simp [fuse]
  | step b i => simp [fuse]
  | loop b body =>
    unfold fuse
    split <;> simp

theorem code_lowered_eq_nil_iff (level : Int) {b : Block} :
    (b.lowered level).code = [] ↔ b.fold = nil := by
  rw [code_eq_nil_iff, lowered]
  split
  · exact fuse_eq_nil_iff
  · exact Iff.rfl

end Block

/-! ## Loops -/

/-- A level that fuses a loop, or keeps it, does so with the block as with its code. -/
theorem lowerLoop_lowered (level : Int) (before body : Block) :
    lowerLoop level (body.lowered level).code = .empty ∨
    (∃ i, lowerLoop level (body.lowered level).code = .fused i ∧
      (before.loop body).lowered level = (before.lowered level).step i) ∨
    (lowerLoop level (body.lowered level).code = .kept (wrapLoop (body.lowered level).code) ∧
      (before.loop body).lowered level = (before.lowered level).loop (body.lowered level)) := by
  have hnone (h : fuse? body.fold.fuse.code = none) :
      (before.fold.loop body.fold).fuse = before.fold.fuse.loop body.fold.fuse := by
    rw [Block.fuse, h]
  have hkept (h : 1 ≤ level → fuse? (body.lowered level).code = none) :
      (before.loop body).lowered level = (before.lowered level).loop (body.lowered level) := by
    unfold Block.lowered at h ⊢
    by_cases hl : 1 ≤ level
    · simp only [if_pos hl, Block.fold] at h ⊢
      exact hnone (h hl)
    · simp only [if_neg hl, Block.fold]
  unfold lowerLoop
  by_cases hflat : isFlat (body.lowered level).code
  · rw [if_pos hflat, (body.folded_lowered level).fold_code hflat]
    split
    · exact .inl rfl
    · rename_i hne
      refine .inr ?_
      split
      · rename_i i hi
        split at hi
        · rename_i hl
          refine .inl ⟨i, rfl, ?_⟩
          simp only [Block.lowered, if_pos hl, Block.fold, Block.fuse] at hi ⊢
          rw [hi]
        · cases hi
      · rename_i hi
        refine .inr ⟨rfl, hkept fun hl => ?_⟩
        rwa [if_pos hl] at hi
  · rw [if_neg hflat]
    refine .inr (.inr ⟨rfl, hkept fun _ => ?_⟩)
    cases hi : fuse? (body.lowered level).code with
    | none => rfl
    | some i => exact absurd (Block.isFlat_of_isFoldable (all_isFoldable_of_fuse? hi)) hflat

/-- A loop is rejected only for a body that folds to nothing, at whatever level. -/
theorem lowerLoop_eq_empty_iff (level : Int) {body : Block} :
    lowerLoop level (body.lowered level).code = .empty ↔ body.fold = .nil := by
  rw [← Block.code_lowered_eq_nil_iff level]
  constructor
  · intro h
    unfold lowerLoop at h
    split at h
    · rename_i hflat
      rw [(body.folded_lowered level).fold_code hflat] at h
      split at h
      · assumption
      · split at h <;> cases h
    · cases h
  · intro h
    rw [h]
    rfl

end TapeLang
