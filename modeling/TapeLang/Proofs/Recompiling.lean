import TapeLang.Proofs.Lengths

/-!
# Compiling the text of a program again

A program that has been compiled can be written as a text and compiled at a higher level: that comes
to the same as compiling the first text at that level (`compile_sourceOf_compile`), so nothing is
lost by fusing late. The text can be written whenever the first one fits into the memory
(`sourceOf?_of_compile`).
-/

set_option autoImplicit false

namespace TapeLang

variable {level level' : Int} {text : List Char} {c : Compilation}

/-! ## Writing the text -/

/-- The text of a compiled program can be written in a memory that has room for the first text. -/
theorem sourceOf?_of_compile (h : compile level text = .ok c) {memory : Memory}
    (htext : memory.objection? text.length = none) :
    sourceOf? memory c.program = .ok (sourceOf c.program) := by
  have hcount : commandCount text ≤ text.length := List.countP_le_length
  have hlength := length_sourceOf_le h
  refine sourceOf?_of_room (wellFormed_of_compile h).args ?_
  exact Memory.objection?_eq_none_of_le htext (by omega) (by omega)

/-! ## Lowering late -/

namespace Block

variable {b b' : Block}

/-- What folds to the same is lowered to the same. -/
theorem lowered_congr (h : b.fold = b'.fold) (level : Int) :
    b.lowered level = b'.lowered level := by
  simp only [lowered, h]

/-- **A lowered block is spelled like the block**, for all levels from that one on. -/
theorem lowered_spelled_lowered (hl : level ≤ level') (h : (b.lowered level).Sound level) :
    (b.lowered level).spelled.lowered level' = b.lowered level' := by
  have hback := lowered_spelled h
  by_cases hfuse : 1 ≤ level
  · -- both levels fuse
    have hlevel (b : Block) : b.lowered level' = b.lowered level := by
      rw [lowered, lowered, if_pos hfuse, if_pos (by omega)]
    rw [hlevel, hlevel, hback]
  · have hfold (b : Block) : b.lowered level = b.fold := if_neg hfuse
    rw [hfold, hfold] at hback
    rw [hfold]
    exact lowered_congr hback level'

end Block

/-! ## Compiling again -/

/-- **Fusing late is fusing early**: the text of a program that a level has compiled compiles, at
that level or a higher one, to what the first text compiles to there. -/
theorem compile_sourceOf_compile (hl : level ≤ level') (h : compile level text = .ok c) :
    ∃ c', compile level' text = .ok c' ∧
      (∃ d, compile level' (sourceOf c.program) = .ok d ∧ d.program = c'.program) ∧
      ∀ memory : Memory, memory.objection? text.length = none →
        sourceOf? memory c.program = .ok (sourceOf c.program) := by
  obtain ⟨c', hc'⟩ := exists_compile_of_level h level'
  obtain ⟨b, hb, hbusy, hcode⟩ := compile_eq_ok h
  obtain ⟨b', hb', -, hcode'⟩ := compile_eq_ok hc'
  obtain rfl : b = b' := Option.some_inj.1 (hb.symm.trans hb')
  have hsound := Block.sound_of_parse? level hb hbusy
  have hparse := parse?_sourceOf (hsound.every.mono fun _ hi => hi.isLoop)
  have hcompiles : ∃ d, compile level' (sourceOf c.program) = .ok d := by
    rw [hcode]
    exact exists_compile_iff.2 ⟨_, hparse, Block.busy_spelled hsound⟩
  obtain ⟨d, hd⟩ := hcompiles
  refine ⟨c', hc', ⟨d, hd, ?_⟩, fun _ => sourceOf?_of_compile h⟩
  obtain ⟨b', hb', -, hcode''⟩ := compile_eq_ok hd
  rw [hcode] at hb'
  obtain rfl : (b.lowered level).spelled = b' := Option.some_inj.1 (hparse.symm.trans hb')
  rw [hcode'', hcode', Block.lowered_spelled_lowered hl hsound]

/-- A loop around one that is fused late only, with a detour that is not written again. -/
theorem compile_sourceOf_compile_nested :
    ∃ c c', compile 0 ['[', '[', '-', '>', '+', '+', '-', '<', ']', '>', ']'] = .ok c ∧
      sourceOf c.program = ['[', '[', '-', '>', '+', '<', ']', '>', ']'] ∧
      sourceOf? ⟨some 11⟩ c.program = .ok (sourceOf c.program) ∧
      compile 1 ['[', '[', '-', '>', '+', '+', '-', '<', ']', '>', ']'] = .ok c' ∧
      c'.program = [⟨.beginLoop, 3⟩, ⟨.add, 1⟩, ⟨.shift, 1⟩, ⟨.endLoop, 3⟩] ∧
      ∃ d, compile 1 (sourceOf c.program) = .ok d ∧ d.program = c'.program := by
  have hc : ∃ c, compile 0 ['[', '[', '-', '>', '+', '+', '-', '<', ']', '>', ']'] = .ok c ∧
    sourceOf c.program = ['[', '[', '-', '>', '+', '<', ']', '>', ']'] := ⟨_, rfl, rfl⟩
  obtain ⟨c, hc, hsource⟩ := hc
  obtain ⟨c', hc', hagain, hwrites⟩ := compile_sourceOf_compile (by decide : (0 : Int) ≤ 1) hc
  refine ⟨c, c', hc, hsource, hwrites _ (by decide), hc', ?_, hagain⟩
  cases hc'
  rfl

end TapeLang
