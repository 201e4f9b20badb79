import TapeLang.Proofs.Folding

/-!
# The block of a text

`parse?` reads a text into a block of single commands, whatever the level: the block consists of the
commands of the text, in order (`commands_of_parse?`).
-/

set_option autoImplicit false

namespace TapeLang

/-- The blocks that are open at a place of a text, the innermost apart. -/
structure Nest where
  inner : Block := .nil
  outer : List Block := []

/-- Takes one command. -/
def Nest.take (t : Nest) : Command → Option Nest
  | .plain i => some { t with inner := t.inner.step i }
  | .openLoop => some ⟨.nil, t.inner :: t.outer⟩
  | .closeLoop =>
    match t.outer with
    | [] => none
    | before :: outer => some ⟨before.loop t.inner, outer⟩

/-- The commands of a text. -/
def commandsOf (text : List Char) : List Command := text.filterMap Command.ofChar?

/-- The instructions of a text without brackets. -/
def instructionsOf (text : List Char) : List Instruction :=
  (commandsOf text).filterMap fun
    | .plain i => some i
    | _ => none

/-- The block of a text whose brackets match. -/
def parse? (text : List Char) : Option Block :=
  match (commandsOf text).foldlM Nest.take {} with
  | some ⟨b, []⟩ => some b
  | _ => none

/-! ## Commands -/

theorem commandsOf_cons (c : Char) (text : List Char) :
    commandsOf (c :: text) = (Command.ofChar? c).toList ++ commandsOf text := by
  unfold commandsOf
  cases hc : Command.ofChar? c <;> simp [hc]

theorem commandsOf_eq_append {text : List Char} {cs ds : List Command}
    (h : commandsOf text = cs ++ ds) :
    ∃ x y, text = x ++ y ∧ commandsOf x = cs ∧ commandsOf y = ds := by
  obtain ⟨x, y, rfl, hx, hy⟩ := List.filterMap_eq_append_iff.1 h
  exact ⟨x, y, rfl, hx, hy⟩

theorem commandsOf_eq_cons {text : List Char} {command : Command} {cs : List Command}
    (h : commandsOf text = command :: cs) :
    ∃ x c y, text = x ++ c :: y ∧ commandsOf x = [] ∧ Command.ofChar? c = some command ∧
      commandsOf y = cs := by
  obtain ⟨x, c, y, rfl, hx, hc, hy⟩ := List.filterMap_eq_cons_iff.1 h
  exact ⟨x, c, y, rfl, List.filterMap_eq_nil_iff.2 hx, hc, hy⟩

theorem commandsOf_append (x y : List Char) :
    commandsOf (x ++ y) = commandsOf x ++ commandsOf y :=
  List.filterMap_append

theorem Command.ofChar?_eq_openLoop {c : Char} (h : ofChar? c = some .openLoop) : c = '[' := by
  unfold ofChar? at h
  split at h <;> first | rfl | cases h

theorem Command.ofChar?_eq_closeLoop {c : Char} (h : ofChar? c = some .closeLoop) : c = ']' := by
  unfold ofChar? at h
  split at h <;> first | rfl | cases h

theorem Command.isPlain_of_ofChar? {c : Char} {i : Instruction} (h : ofChar? c = some (.plain i)) :
    i.IsPlain := by
  unfold ofChar? at h
  split at h <;> cases h <;> simp [Instruction.IsPlain, Kind.isLoop]

/-! ## Texts without brackets -/

section
variable {text : List Char} {b : Block}

theorem loopless_iff (h : commandsOf text = b.commands) :
    (b.EveryLoop fun _ => False) ↔ ∀ c ∈ text, c ≠ '[' ∧ c ≠ ']' := by
  constructor
  · intro hb
    have hplain {c : Char} (command : Command) (hc : Command.ofChar? c = some command)
        (hcommand : ∀ i, command ≠ .plain i) : c ∉ text := by
      intro hmem
      have hcommands : command ∈ commandsOf text := List.mem_filterMap.2 ⟨c, hmem, hc⟩
      rw [h, Block.commands_of_loopless hb] at hcommands
      obtain ⟨i, -, rfl⟩ := List.mem_map.1 hcommands
      exact hcommand i rfl
    intro c hc
    constructor
    · rintro rfl
      exact hplain .openLoop rfl (by simp) hc
    · rintro rfl
      exact hplain .closeLoop rfl (by simp) hc
  · intro htext
    refine Block.everyLoop_of_commands fun before body behind hcommands => ?_
    have hmem : .openLoop ∈ commandsOf text := by simp [h, hcommands]
    obtain ⟨c, hc, hopen⟩ := List.mem_filterMap.1 hmem
    exact (htext c hc).1 (Command.ofChar?_eq_openLoop hopen)

theorem instructionsOf_eq_code (h : commandsOf text = b.commands)
    (hb : b.EveryLoop fun _ => False) : instructionsOf text = b.code := by
  rw [instructionsOf, h, Block.commands_of_loopless hb, List.filterMap_map]
  exact List.filterMap_some

end

namespace Nest

/-- The commands taken so far. -/
def commands (t : Nest) : List Command :=
  t.outer.reverse.flatMap (fun b => b.commands ++ [.openLoop]) ++ t.inner.commands

theorem commands_take {t t' : Nest} {c : Command} (h : t.take c = some t') :
    t'.commands = t.commands ++ [c] := by
  obtain ⟨inner, outer⟩ := t
  cases c with
  | plain i =>
    cases h
    simp [commands, Block.commands]
  | openLoop =>
    cases h
    simp [commands, Block.commands]
  | closeLoop =>
    cases outer with
    | nil => cases h
    | cons before outer =>
      cases h
      simp [commands, Block.commands]

theorem commands_foldlM {t t' : Nest} {cs : List Command} (h : cs.foldlM take t = some t') :
    t'.commands = t.commands ++ cs := by
  induction cs generalizing t with
  | nil =>
    cases h
    rw [List.append_nil]
  | cons c cs ih =>
    rw [List.foldlM_cons, Option.bind_eq_bind, Option.bind_eq_some_iff] at h
    obtain ⟨u, hu, h⟩ := h
    rw [ih h, commands_take hu, List.append_assoc, List.singleton_append]

end Nest

theorem parse?_eq_some {text : List Char} {b : Block} (h : parse? text = some b) :
    (commandsOf text).foldlM Nest.take {} = some ⟨b, []⟩ := by
  unfold parse? at h
  split at h
  · rename_i hfold
    cases h
    exact hfold
  · cases h

/-- The block of a text consists of its commands. -/
theorem commands_of_parse? {text : List Char} {b : Block} (h : parse? text = some b) :
    b.commands = commandsOf text := by
  have hcommands := Nest.commands_foldlM (parse?_eq_some h)
  simpa [Nest.commands, Block.commands] using hcommands

theorem Block.every_iff {p : Instruction → Prop} {b : Block} :
    b.Every p ↔ ∀ i, Command.plain i ∈ b.commands → p i := by
  induction b with
  | nil => simp [Every, commands]
  | step b i ih =>
    simp only [Every, ih, commands, List.mem_append, List.mem_singleton, Command.plain.injEq]
    constructor
    · intro h j hj
      obtain ⟨hb, hi⟩ := h
      rcases hj with hj | rfl
      · exact hb j hj
      · exact hi
    · intro h
      exact ⟨fun j hj => h j (.inl hj), h i (.inr rfl)⟩
  | loop b body ihb ih =>
    simp only [Every, ihb, ih, commands]
    constructor
    · intro h j hj
      obtain ⟨hb, hbody⟩ := h
      simp only [List.mem_append, List.mem_cons, reduceCtorEq, false_or, List.not_mem_nil,
        or_false] at hj
      rcases hj with hj | hj
      · exact hb j hj
      · exact hbody j hj
    · intro h
      exact ⟨fun j hj => h j (by simp [hj]), fun j hj => h j (by simp [hj])⟩

/-- The block of a text has single commands only. -/
theorem isPlain_of_parse? {text : List Char} {b : Block} (h : parse? text = some b) :
    b.Every Instruction.IsPlain := by
  rw [Block.every_iff, commands_of_parse? h]
  intro i hi
  obtain ⟨c, -, hc⟩ := List.mem_filterMap.1 hi
  exact Command.isPlain_of_ofChar? hc

/-! ## Busy nests -/

/-- No body of a loop folds to nothing. -/
def Block.Busy (b : Block) : Prop := b.EveryLoop fun body => body.fold ≠ .nil

namespace Nest

/-- No loop that is closed has a body that folds to nothing. -/
structure Busy (t : Nest) : Prop where
  inner : t.inner.Busy
  outer : ∀ b ∈ t.outer, b.Busy

variable {t t' : Nest} {c : Command}

/-- Taking a command keeps a nest busy, unless it closes a loop over nothing. -/
theorem busy_take_iff (h : t.take c = some t') :
    t'.Busy ↔ t.Busy ∧ (c = .closeLoop → t.inner.fold ≠ .nil) := by
  obtain ⟨inner, outer⟩ := t
  cases c with
  | plain i =>
    cases h
    constructor
    · intro hb
      exact ⟨⟨hb.inner, hb.outer⟩, Command.noConfusion⟩
    · intro hb
      exact ⟨hb.1.inner, hb.1.outer⟩
  | openLoop =>
    cases h
    constructor
    · intro hb
      obtain ⟨hinner, houter⟩ := List.forall_mem_cons.1 hb.outer
      exact ⟨⟨hinner, houter⟩, Command.noConfusion⟩
    · intro hb
      exact ⟨trivial, List.forall_mem_cons.2 ⟨hb.1.inner, hb.1.outer⟩⟩
  | closeLoop =>
    cases outer with
    | nil => cases h
    | cons before outer =>
      cases h
      constructor
      · intro hb
        obtain ⟨hbefore, hinner, hbody⟩ := hb.inner
        exact ⟨⟨hinner, List.forall_mem_cons.2 ⟨hbefore, hb.outer⟩⟩, fun _ => hbody⟩
      · intro hb
        obtain ⟨hbefore, houter⟩ := List.forall_mem_cons.1 hb.1.outer
        exact ⟨⟨hbefore, hb.1.inner, hb.2 rfl⟩, houter⟩

theorem busy_of_foldlM {cs : List Command} (h : cs.foldlM take t = some t') (hb : t'.Busy) :
    t.Busy := by
  induction cs generalizing t with
  | nil =>
    cases h
    exact hb
  | cons c cs ih =>
    rw [List.foldlM_cons, Option.bind_eq_bind, Option.bind_eq_some_iff] at h
    obtain ⟨u, hu, h⟩ := h
    exact ((busy_take_iff hu).1 (ih h)).1

end Nest

end TapeLang
