import TapeLang.Proofs.Lowering
import TapeLang.Proofs.Parsing

/-!
# The pass over the text

The pass keeps the code of each open loop newest first; `Progress.Reads` says to which open blocks
that code belongs. What a text compiles to at a level is the code of its block, lowered
(`compile_eq_ok`). A text compiles, at whatever level, if and only if it has a block in which no
body of a loop folds to nothing (`exists_compile_iff`).
-/

set_option autoImplicit false

namespace TapeLang

/-- The code under construction is that of the open blocks, lowered. -/
structure Progress.Reads (level : Int) (p : Progress) (t : Nest) : Prop where
  code : p.code = (t.inner.lowered level).code.reverse
  frames : p.frames.map (·.before) = t.outer.map fun b => (b.lowered level).code.reverse
  busy : t.Busy

namespace Progress

variable {level : Int} {p q : Progress} {t t' : Nest} {c : Char}

theorem reads_start (level : Int) : Reads level {} {} := by
  refine ⟨?_, rfl, ⟨trivial, by simp⟩⟩
  unfold Block.lowered
  split <;> rfl

/-! ## One character -/

theorem Reads.close (h : p.Reads level t) (hq : p.close level = .ok q) :
    ∃ t', t.take .closeLoop = some t' ∧ q.Reads level t' := by
  obtain ⟨inner, outer⟩ := t
  obtain ⟨hcode, hframes, hbusy⟩ := h
  unfold Progress.close at hq
  split at hq
  · cases hq
  · rename_i frame frames hp
    rw [hp] at hframes
    cases outer with
    | nil => cases hframes
    | cons before outer =>
      simp only [List.map_cons, List.cons.injEq] at hframes
      obtain ⟨hbefore, hframes⟩ := hframes
      have htake : Nest.take ⟨inner, before :: outer⟩ .closeLoop
          = some ⟨before.loop inner, outer⟩ := rfl
      have hbusy' (hne : lowerLoop level (inner.lowered level).code ≠ .empty) :
          Nest.Busy ⟨before.loop inner, outer⟩ :=
        (Nest.busy_take_iff htake).2
          ⟨hbusy, fun _ hbody => hne ((lowerLoop_eq_empty_iff level).2 hbody)⟩
      refine ⟨_, htake, ?_⟩
      rw [hcode, List.reverse_reverse] at hq
      rcases lowerLoop_lowered level before inner with hl | ⟨i, hl, hblock⟩ | ⟨hl, hblock⟩
      · simp only [hl] at hq
        cases hq
      · simp only [hl, Except.ok.injEq] at hq
        subst hq
        refine ⟨?_, hframes, hbusy' (by simp [hl])⟩
        simp [hblock, Block.code, hbefore]
      · simp only [hl, Except.ok.injEq] at hq
        subst hq
        refine ⟨?_, hframes, hbusy' (by simp [hl])⟩
        simp [hblock, Block.code, hbefore]

theorem Reads.step (h : p.Reads level t) (hq : p.step level c = .ok q) :
    ∃ t', (Command.ofChar? c).toList.foldlM Nest.take t = some t' ∧ q.Reads level t' := by
  obtain ⟨hcode, hframes, hbusy⟩ := id h
  unfold Progress.step at hq
  cases hc : Command.ofChar? c with
  | none =>
    rw [hc] at hq
    cases hq
    exact ⟨t, rfl, hcode, hframes, hbusy⟩
  | some command =>
    rw [hc] at hq
    suffices ∃ t', t.take command = some t' ∧ q.Reads level t' by simpa using this
    cases command with
    | plain i =>
      cases hq
      have htake : t.take (.plain i) = some { t with inner := t.inner.step i } := rfl
      refine ⟨_, htake, ?_, hframes, (Nest.busy_take_iff htake).2 ⟨hbusy, Command.noConfusion⟩⟩
      show TapeLang.push p.code i = _
      rw [hcode, Block.lowered_step, Block.code_push]
    | openLoop =>
      cases hq
      have htake : t.take .openLoop = some ⟨.nil, t.inner :: t.outer⟩ := rfl
      refine ⟨_, htake, ?_, ?_, (Nest.busy_take_iff htake).2 ⟨hbusy, Command.noConfusion⟩⟩
      · unfold Block.lowered
        split <;> rfl
      · rw [List.map_cons, List.map_cons, hframes, hcode]
    | closeLoop => exact h.close hq

theorem Reads.exists_close (h : p.Reads level t) (ht : t.take .closeLoop = some t')
    (hb : t'.Busy) : ∃ q, p.close level = .ok q := by
  obtain ⟨inner, outer⟩ := t
  obtain ⟨hcode, hframes, -⟩ := h
  obtain ⟨-, hbody⟩ := (Nest.busy_take_iff ht).1 hb
  have hne := mt (lowerLoop_eq_empty_iff level).1 (hbody rfl)
  unfold Progress.close
  split
  · rename_i hp
    rw [hp] at hframes
    cases outer with
    | nil => cases ht
    | cons before outer => cases hframes
  · rw [hcode, List.reverse_reverse]
    split
    · exact absurd ‹_› hne
    · exact ⟨_, rfl⟩
    · exact ⟨_, rfl⟩

theorem Reads.exists_step (h : p.Reads level t)
    (ht : (Command.ofChar? c).toList.foldlM Nest.take t = some t') (hb : t'.Busy) :
    ∃ q, p.step level c = .ok q := by
  unfold Progress.step
  cases hc : Command.ofChar? c with
  | none => exact ⟨_, rfl⟩
  | some command =>
    have htake : t.take command = some t' := by simpa [hc] using ht
    cases command with
    | plain i => exact ⟨_, rfl⟩
    | openLoop => exact ⟨_, rfl⟩
    | closeLoop => exact h.exists_close htake hb

/-! ## The text that is left -/

theorem Reads.foldlM {text : List Char} (h : p.Reads level t)
    (hq : text.foldlM (Progress.step level) p = .ok q) :
    ∃ t', (commandsOf text).foldlM Nest.take t = some t' ∧ q.Reads level t' := by
  induction text generalizing p t with
  | nil =>
    cases hq
    exact ⟨t, rfl, h⟩
  | cons c text ih =>
    rw [List.foldlM_cons] at hq
    cases hstep : p.step level c with
    | error e =>
      rw [hstep] at hq
      cases hq
    | ok u =>
      rw [hstep] at hq
      obtain ⟨t₁, ht₁, hu⟩ := h.step hstep
      obtain ⟨t₂, ht₂, hq⟩ := ih hu hq
      refine ⟨t₂, ?_, hq⟩
      rw [commandsOf_cons, List.foldlM_append, ht₁]
      exact ht₂

theorem Reads.exists_foldlM {text : List Char} (h : p.Reads level t)
    (ht : (commandsOf text).foldlM Nest.take t = some t') (hb : t'.Busy) :
    ∃ q, text.foldlM (Progress.step level) p = .ok q ∧ q.Reads level t' := by
  induction text generalizing p t with
  | nil =>
    cases ht
    exact ⟨p, rfl, h⟩
  | cons c text ih =>
    rw [commandsOf_cons, List.foldlM_append, Option.bind_eq_bind, Option.bind_eq_some_iff] at ht
    obtain ⟨t₁, ht₁, ht⟩ := ht
    obtain ⟨u, hu⟩ := h.exists_step ht₁ (Nest.busy_of_foldlM ht hb)
    obtain ⟨t₂, ht₂, hreads⟩ := h.step hu
    obtain rfl : t₁ = t₂ := Option.some_inj.1 (ht₁.symm.trans ht₂)
    rw [List.foldlM_cons, hu]
    exact ih hreads ht

end Progress

/-! ## The whole text -/

section
variable {level : Int} {text : List Char} {c : Compilation}

/-- **What a text compiles to** is the code of its block, lowered. -/
theorem compile_eq_ok (h : compile level text = .ok c) :
    ∃ b, parse? text = some b ∧ b.Busy ∧ c.program = (b.lowered level).code := by
  unfold compile at h
  cases hfold : text.foldlM (Progress.step level) {} with
  | error e =>
    rw [hfold] at h
    cases h
  | ok q =>
    rw [hfold] at h
    obtain ⟨⟨inner, outer⟩, ht, hcode, hframes, hbusy⟩ := (Progress.reads_start level).foldlM hfold
    replace h : q.finish = .ok c := h
    unfold Progress.finish at h
    split at h
    · rename_i hq
      cases h
      rw [hq] at hframes
      cases outer with
      | nil =>
        refine ⟨inner, by rw [parse?, ht], hbusy.inner, ?_⟩
        show q.code.reverse = _
        rw [hcode, List.reverse_reverse]
      | cons => cases hframes
    · cases h

/-- **What compiles**: the texts with a block in which no body of a loop folds to nothing. -/
theorem exists_compile_iff :
    (∃ c, compile level text = .ok c) ↔ ∃ b, parse? text = some b ∧ b.Busy := by
  constructor
  · intro h
    obtain ⟨c, hc⟩ := h
    obtain ⟨b, hb, hbusy, -⟩ := compile_eq_ok hc
    exact ⟨b, hb, hbusy⟩
  · intro h
    obtain ⟨b, hb, hbusy⟩ := h
    have hnest : Nest.Busy ⟨b, []⟩ := ⟨hbusy, by simp⟩
    obtain ⟨q, hq, hreads⟩ :=
      (Progress.reads_start level).exists_foldlM (parse?_eq_some hb) hnest
    have hframes : q.frames = [] := List.map_eq_nil_iff.1 hreads.frames
    refine ⟨⟨q.code.reverse, q.count⟩, ?_⟩
    unfold compile
    rw [hq]
    show q.finish = _
    rw [Progress.finish, hframes]

/-- The level does not decide which texts compile. -/
theorem exists_compile_of_level (h : compile level text = .ok c) (level' : Int) :
    ∃ c', compile level' text = .ok c' :=
  exists_compile_iff.2 (exists_compile_iff.1 ⟨c, h⟩)

end

end TapeLang
