import TapeLang.Proofs.WellFormed

/-!
# The text of a program

`Block.spelled` writes every instruction of a block in single commands. The text of a program has
that block (`parse?_sourceOf`), and lowering it gives the block back if that is sound
(`Block.lowered_spelled`): so a well-formed program is what its text compiles to.
-/

set_option autoImplicit false

namespace TapeLang

namespace Block

/-- An instruction behind a block, `n` times. -/
def times (b : Block) (i : Instruction) : Nat → Block
  | 0 => b
  | n + 1 => (b.times i n).step i

/-- Single steps of a kind, up or down, as many as the amount says. -/
def count (b : Block) (kind : Kind) (amount : Int) : Block :=
  (b.times ⟨kind, 1⟩ amount.toNat).times ⟨kind, -1⟩ (-amount).toNat

/-- The body of the loop that moves a cell to a distance, in single commands. -/
def carry (sign distance : Int) : Block :=
  ((((nil.step ⟨.modify, -1⟩).count .shift distance).step ⟨.modify, sign⟩).count .shift (-distance))

/-- The commands of an instruction behind a block. -/
def spell (b : Block) (i : Instruction) : Block :=
  match i.kind with
  | .modify => b.count .modify i.arg
  | .shift => b.count .shift i.arg
  | .print => b.times ⟨.print, 1⟩ i.arg.toNat
  | .scan => b.step ⟨.scan, 1⟩
  | .clear => b.loop (nil.step ⟨.modify, -1⟩)
  | .add => b.loop (carry 1 i.arg)
  | .sub => b.loop (carry (-1) i.arg)
  | .beginLoop | .endLoop => b

/-- The block with every instruction written in commands. -/
def spelled : Block → Block
  | nil => nil
  | step b i => b.spelled.spell i
  | loop b body => b.spelled.loop body.spelled

end Block

/-! ## Reading the text -/

/-- The commands lead from one block to another, at whatever depth. -/
def Leads (cs : List Command) (b b' : Block) : Prop :=
  ∀ outer, cs.foldlM Nest.take ⟨b, outer⟩ = some ⟨b', outer⟩

namespace Leads

variable {cs ds : List Command} {b b' b'' body : Block}

theorem append (h : Leads cs b b') (h' : Leads ds b' b'') : Leads (cs ++ ds) b b'' := by
  intro outer
  rw [List.foldlM_append, h outer]
  exact h' outer

theorem plain (b : Block) (i : Instruction) : Leads [.plain i] b (b.step i) := fun _ => rfl

theorem replicate (b : Block) (i : Instruction) (n : Nat) :
    Leads (List.replicate n (.plain i)) b (b.times i n) := by
  induction n with
  | zero => exact fun _ => rfl
  | succ n ih =>
    rw [List.replicate_succ']
    exact ih.append (plain _ i)

theorem loop (b : Block) (h : Leads cs .nil body) :
    Leads (.openLoop :: (cs ++ [.closeLoop])) b (b.loop body) := by
  intro outer
  rw [List.foldlM_cons]
  show (cs ++ [Command.closeLoop]).foldlM Nest.take ⟨.nil, b :: outer⟩ = _
  rw [List.foldlM_append, h]
  rfl

theorem repeated {c : Char} {i : Instruction} (hc : Command.ofChar? c = some (.plain i)) (b : Block)
    (n : Int) : Leads (commandsOf (repeated c n)) b (b.times i n.toNat) := by
  rw [commandsOf, TapeLang.repeated, List.filterMap_replicate_of_some hc]
  exact replicate b i n.toNat

theorem moves (b : Block) (distance : Int) :
    Leads (commandsOf (moves distance)) b (b.count .shift distance) := by
  rw [TapeLang.moves, commandsOf_append]
  exact (repeated rfl b _).append (repeated rfl _ _)

theorem carry {c : Char} {sign : Int} (hc : Command.ofChar? c = some (.plain ⟨.modify, sign⟩))
    (distance : Int) :
    Leads (commandsOf ('-' :: (TapeLang.moves distance ++ c :: TapeLang.moves (-distance)))) .nil
      (.carry sign distance) := by
  rw [commandsOf_cons, commandsOf_append, commandsOf_cons, hc]
  exact (plain .nil _).append ((moves _ distance).append ((plain _ _).append (moves _ _)))

/-- The commands of an instruction. -/
theorem commands (b : Block) {i : Instruction} (hi : i.kind.isLoop = false) :
    Leads (commandsOf i.commands) b (b.spell i) := by
  obtain ⟨kind, arg⟩ := i
  have hloop {text : List Char} {body : Block} (h : Leads (commandsOf text) .nil body) :
      Leads (commandsOf ('[' :: (text ++ [']']))) b (b.loop body) := by
    rw [commandsOf_cons, commandsOf_append]
    exact h.loop b
  cases kind with
  | modify =>
    show Leads (commandsOf (TapeLang.repeated '+' arg ++ TapeLang.repeated '-' (-arg))) b _
    rw [commandsOf_append]
    exact (repeated rfl b _).append (repeated rfl _ _)
  | shift => exact moves b arg
  | print => exact repeated rfl b arg
  | scan => exact plain b _
  | clear =>
    have hbody : Leads (commandsOf ['-']) .nil (.step .nil ⟨.modify, -1⟩) := plain .nil _
    exact hloop hbody
  | add => simpa [Instruction.commands, Block.spell] using hloop (carry (c := '+') rfl arg)
  | sub => simpa [Instruction.commands, Block.spell] using hloop (carry (c := '-') rfl arg)
  | beginLoop => cases hi
  | endLoop => cases hi

end Leads

theorem sourceOf_append (p q : Program) : sourceOf (p ++ q) = sourceOf p ++ sourceOf q :=
  List.flatMap_append

theorem leads_sourceOf {b : Block} (h : b.Every (·.kind.isLoop = false)) :
    Leads (commandsOf (sourceOf b.code)) .nil b.spelled := by
  induction b with
  | nil => exact fun _ => rfl
  | step b i ih =>
    obtain ⟨hb, hi⟩ := h
    have htext : sourceOf [i] = i.commands := by simp [sourceOf]
    rw [Block.code, sourceOf_append, commandsOf_append, htext]
    exact (ih hb).append (.commands _ hi)
  | loop b body ihb ih =>
    have htext : sourceOf (wrapLoop body.code) = '[' :: (sourceOf body.code ++ [']']) := by
      simp [sourceOf, wrapLoop, Instruction.commands]
    rw [Block.code, sourceOf_append, commandsOf_append, htext, commandsOf_cons, commandsOf_append]
    exact (ihb h.1).append ((ih h.2).loop _)

/-- **The text of a block's code** has the block, written in commands. -/
theorem parse?_sourceOf {b : Block} (h : b.Every (·.kind.isLoop = false)) :
    parse? (sourceOf b.code) = some b.spelled := by
  have hfold : (commandsOf (sourceOf b.code)).foldlM Nest.take {} = some ⟨b.spelled, []⟩ :=
    leads_sourceOf h []
  rw [parse?, hfold]

/-! ## Lowering it again -/

namespace Block

variable {level : Int} {a b body : Block} {kind : Kind}

theorem lowered_loop_fused {i : Instruction} (hl : 1 ≤ level)
    (h : fuse? (body.lowered level).code = some i) :
    (b.loop body).lowered level = (b.lowered level).step i := by
  simp only [lowered, if_pos hl, fold, fuse] at h ⊢
  rw [h]

theorem lowered_loop_kept (h : 1 ≤ level → fuse? (body.lowered level).code = none) :
    (b.loop body).lowered level = (b.lowered level).loop (body.lowered level) := by
  unfold lowered at h ⊢
  split
  · rename_i hl
    simp only [if_pos hl, fold, fuse] at h ⊢
    rw [h hl]
  · rfl

theorem lowered_times (b : Block) (i : Instruction) (n : Nat) :
    (b.times i (n + 1)).lowered level = ((b.times i n).lowered level).push i :=
  lowered_step level _ i

/-- Single steps in one direction merge to one instruction. -/
theorem lowered_times_eq {unit : Int} (hk : kind.isFoldable) (hunit : unit ≠ 0)
    (ha : b.lowered level = a) (hlast : a.lastKind? ≠ some kind) {n : Nat} (hn : 0 < n) :
    (b.times ⟨kind, unit⟩ n).lowered level = a.step ⟨kind, n * unit⟩ := by
  obtain ⟨n, rfl⟩ : ∃ m, n = m + 1 := ⟨n - 1, by omega⟩
  clear hn
  rw [lowered_times]
  induction n with
  | zero =>
    have hidle : Instruction.isIdle ⟨kind, unit⟩ = false := by simp [Instruction.isIdle, hunit]
    rw [times, ha]
    rcases a.push_cases ⟨kind, unit⟩ with ⟨before, _, c, d, rfl, hi, -, -⟩ | ⟨-, hpush⟩
    · cases hi
      exact absurd rfl hlast
    · simp [hpush, stepUnlessIdle, hidle]
  | succ n ih =>
    have hsum : ((n + 1 : Nat) : Int) * unit + unit = ((n + 2 : Nat) : Int) * unit := by
      rw [show ((n + 2 : Nat) : Int) = (n + 1 : Nat) + 1 by omega, Int.add_mul, Int.one_mul]
    have hne : ((n + 2 : Nat) : Int) * unit ≠ 0 := Int.mul_ne_zero (by omega) hunit
    have hidle : Instruction.isIdle ⟨kind, ((n + 2 : Nat) : Int) * unit⟩ = false := by
      simp only [Instruction.isIdle, beq_eq_false_iff_ne.2 hne, Bool.and_false]
    rw [lowered_times, ih, push, if_pos (by simp [hk]), hsum, stepUnlessIdle, hidle]
    rfl

theorem lowered_count {amount : Int} (hk : kind.isFoldable) (hamount : amount ≠ 0)
    (ha : b.lowered level = a) (hlast : a.lastKind? ≠ some kind) :
    (b.count kind amount).lowered level = a.step ⟨kind, amount⟩ := by
  rcases Int.lt_or_gt_of_ne hamount with hneg | hpos
  · rw [count, Int.toNat_of_nonpos (by omega), times,
      lowered_times_eq hk (by decide) ha hlast (by omega)]
    congr 2
    omega
  · rw [count, Int.toNat_of_nonpos (show -amount ≤ 0 by omega), times,
      lowered_times_eq hk (by decide) ha hlast (by omega)]
    congr 2
    omega

theorem lowered_nil : nil.lowered level = nil := by
  unfold lowered
  split <;> rfl

theorem lowered_carry {sign distance : Int} (hs : sign ≠ 0) (hd : distance ≠ 0) :
    (carry sign distance).lowered level = (countFirst sign distance).foldl step nil := by
  have hcount : (nil.step ⟨.modify, -1⟩).lowered level = nil.step ⟨.modify, -1⟩ := by
    rw [lowered_step, lowered_nil]
    rfl
  have hgo : ((nil.step ⟨.modify, -1⟩).count .shift distance).lowered level
      = (nil.step ⟨.modify, -1⟩).step ⟨.shift, distance⟩ :=
    lowered_count rfl hd hcount (by simp [lastKind?])
  have hchange : (((nil.step ⟨.modify, -1⟩).count .shift distance).step ⟨.modify, sign⟩).lowered
      level = ((nil.step ⟨.modify, -1⟩).step ⟨.shift, distance⟩).step ⟨.modify, sign⟩ := by
    rw [lowered_step, hgo]
    simp [push, stepUnlessIdle, Instruction.isIdle, Kind.isFoldable, hs]
  exact lowered_count rfl (by omega) hchange (by simp [lastKind?])

theorem lowered_carried {sign distance : Int} (hl : 1 ≤ level) (hs : sign ≠ 0) (hd : distance ≠ 0)
    {i : Instruction} (hi : i.IsMove sign distance) :
    (b.loop (carry sign distance)).lowered level = (b.lowered level).step i := by
  refine lowered_loop_fused hl ?_
  rw [lowered_carry hs hd]
  rcases hi with ⟨rfl, rfl⟩ | ⟨rfl, rfl⟩ <;> simp [countFirst, code, fuse?, transfer?]

theorem lowered_spell {i : Instruction} (hi : i.Sound level) (ha : b.lowered level = a)
    (hlast : i.kind.isFoldable → a.lastKind? ≠ some i.kind) :
    (b.spell i).lowered level = a.step i := by
  obtain ⟨kind, arg⟩ := i
  obtain ⟨hloop, hfits, hfused⟩ := hi
  have hl (hk : kind.isFused) : 1 ≤ level := by
    by_contra hl
    rw [hfused (by omega)] at hk
    cases hk
  cases kind with
  | modify => exact lowered_count rfl hfits ha (hlast rfl)
  | shift => exact lowered_count rfl hfits ha (hlast rfl)
  | print =>
    have hpos : 1 ≤ arg := hfits
    have hcount : 0 < arg.toNat := by omega
    have hsum : (arg.toNat : Int) * 1 = arg := by omega
    have htimes : (b.times ⟨.print, 1⟩ arg.toNat).lowered level
        = a.step ⟨.print, arg.toNat * 1⟩ :=
      lowered_times_eq rfl (by decide) ha (hlast rfl) hcount
    rw [hsum] at htimes
    exact htimes
  | scan =>
    obtain rfl : arg = 1 := hfits
    exact (lowered_step level b _).trans (by rw [ha]; cases a <;> rfl)
  | clear =>
    obtain rfl : arg = 0 := hfits
    subst ha
    refine lowered_loop_fused (hl rfl) ?_
    rw [lowered_step, lowered_nil]
    rfl
  | add => exact ha ▸ lowered_carried (hl rfl) (by decide) hfits (.inl ⟨rfl, rfl⟩)
  | sub => exact ha ▸ lowered_carried (hl rfl) (by decide) hfits (.inr ⟨rfl, rfl⟩)
  | beginLoop => cases hloop
  | endLoop => cases hloop

/-- **Lowering a spelled block** gives the block back. -/
theorem lowered_spelled (h : b.Sound level) : b.spelled.lowered level = b := by
  induction b with
  | nil => exact lowered_nil
  | step b i ih => exact lowered_spell h.2.1 (ih h.1) h.2.2
  | loop b body ihb ih =>
    obtain ⟨hb, hbody, -, hidiom⟩ := h
    rw [spelled, lowered_loop_kept, ihb hb, ih hbody]
    intro hl
    rw [ih hbody]
    exact fuse?_eq_none_iff.2 (hidiom hl)

/-! ## Loops that do something -/

section
variable {p : Block → Prop}

theorem everyLoop_times (i : Instruction) (n : Nat) :
    (b.times i n).EveryLoop p ↔ b.EveryLoop p := by
  induction n with
  | zero => exact Iff.rfl
  | succ n ih => exact ih

theorem everyLoop_count (amount : Int) : (b.count kind amount).EveryLoop p ↔ b.EveryLoop p := by
  rw [count, everyLoop_times, everyLoop_times]

theorem everyLoop_carry (sign distance : Int) : (carry sign distance).EveryLoop p := by
  rw [carry, everyLoop_count]
  exact (everyLoop_count distance).2 trivial

end

theorem fold_carry_ne_nil {sign distance : Int} (hs : sign ≠ 0) (hd : distance ≠ 0) :
    (carry sign distance).fold ≠ nil := by
  rw [Ne, ← code_lowered_eq_nil_iff 0, lowered_carry hs hd]
  simp [countFirst, code]

theorem busy_spelled (h : b.Sound level) : b.spelled.Busy := by
  induction b with
  | nil => trivial
  | step b i ih =>
    obtain ⟨hb, hi, -⟩ := h
    have hbusy := ih hb
    obtain ⟨kind, arg⟩ := i
    have hfits := hi.argFits
    cases kind with
    | modify => exact (everyLoop_count arg).2 hbusy
    | shift => exact (everyLoop_count arg).2 hbusy
    | print => exact (everyLoop_times _ _).2 hbusy
    | scan => exact hbusy
    | clear => exact ⟨hbusy, trivial, by simp [fold, push, stepUnlessIdle, Instruction.isIdle]⟩
    | add => exact ⟨hbusy, everyLoop_carry 1 arg, fold_carry_ne_nil (by decide) hfits⟩
    | sub => exact ⟨hbusy, everyLoop_carry (-1) arg, fold_carry_ne_nil (by decide) hfits⟩
    | beginLoop => exact hbusy
    | endLoop => exact hbusy
  | loop b body ihb ih =>
    obtain ⟨hb, hbody, hne, -⟩ := h
    refine ⟨ihb hb, ih hbody, fun hfold => hne ?_⟩
    have hcode := (code_lowered_eq_nil_iff level).2 hfold
    rwa [lowered_spelled hbody, code_eq_nil_iff] at hcode

end Block

/-! ## Programs and their texts -/

/-- **A well-formed program is what its text compiles to.** -/
theorem compile_sourceOf {level : Int} {p : Program} (h : WellFormed level p) :
    ∃ c, compile level (sourceOf p) = .ok c ∧ c.program = p := by
  obtain ⟨b, hb, rfl⟩ := h.exists_sound
  have hparse := parse?_sourceOf (hb.every.mono fun _ hi => hi.isLoop)
  have hcompiles : ∃ c, compile level (sourceOf b.code) = .ok c :=
    exists_compile_iff.2 ⟨_, hparse, Block.busy_spelled hb⟩
  obtain ⟨c, hc⟩ := hcompiles
  obtain ⟨b', hb', -, hcode⟩ := compile_eq_ok hc
  obtain rfl : b.spelled = b' := Option.some_inj.1 (hparse.symm.trans hb')
  exact ⟨c, hc, by rw [hcode, Block.lowered_spelled hb]⟩

/-! ## Room for the text -/

theorem length_repeated (c : Char) (n : Int) : (repeated c n).length = n.toNat := by
  simp [repeated]

theorem length_moves (distance : Int) : (moves distance).length = distance.natAbs := by
  simp only [moves, List.length_append, length_repeated]
  omega

namespace Instruction

/-- The text of a fused loop that moves a cell. -/
theorem length_commands_move {kind : Kind} (hkind : kind = .add ∨ kind = .sub) (distance : Int) :
    (commands ⟨kind, distance⟩).length = 2 * distance.natAbs + 4 := by
  rcases hkind with rfl | rfl <;>
    simp only [commands, List.length_append, List.length_cons, List.length_nil, length_moves] <;>
    omega

namespace ArgFits

variable {i : Instruction} (h : i.ArgFits)
include h

theorem natAbs_arg_le_length_commands (hkind : i.kind.isLoop = false) :
    i.arg.natAbs ≤ i.commands.length := by
  obtain ⟨kind, arg⟩ := i
  cases kind with
  | beginLoop => cases hkind
  | endLoop => cases hkind
  | _ =>
    simp only [ArgFits] at h
    simp only [commands, List.length_append, List.length_cons, length_repeated, length_moves]
    omega

/-- Where all the commands of an instruction fit, so does everything that they are made of. -/
theorem capacityError?_eq_none {memory : Memory}
    (hfits : memory.objection? i.commands.length = none) : i.capacityError? memory = none := by
  have hroom {n : Nat} (hn : n ≤ i.commands.length) : memory.objection? n = none :=
    Memory.objection?_eq_none_of_le hfits (by omega) (by omega)
  have harg (hkind : i.kind.isLoop = false) : memory.objection? i.arg.natAbs = none :=
    hroom (h.natAbs_arg_le_length_commands hkind)
  obtain ⟨kind, arg⟩ := i
  cases kind with
  | modify => exact harg rfl
  | shift => exact harg rfl
  | print =>
    have habs : (arg.natAbs : Int) = arg := Int.natAbs_of_nonneg (Int.le_of_lt h)
    rw [← habs]
    exact harg rfl
  | add =>
    have hlength := length_commands_move (.inl rfl) arg
    exact Option.or_eq_none_iff.2 ⟨harg rfl, hroom hlength.ge⟩
  | sub =>
    have hlength := length_commands_move (.inr rfl) arg
    exact Option.or_eq_none_iff.2 ⟨harg rfl, hroom hlength.ge⟩
  | _ => rfl

end ArgFits

end Instruction

section
variable {memory : Memory} {p : Program}

theorem sourceOf?_eq_ok {text : List Char} (h : sourceOf? memory p = .ok text) :
    text = sourceOf p ∧ memory.objection? (sourceOf p).length = none := by
  unfold sourceOf? at h
  split at h
  · cases h
  · split at h
    · cases h
    · rename_i hroom
      exact ⟨(Except.ok.inj h).symm, hroom⟩

/-- If there is room for a text, then also for all that it is made of. -/
theorem sourceOf?_of_room (hp : ∀ i ∈ p, i.ArgFits)
    (h : memory.objection? (sourceOf p).length = none) :
    sourceOf? memory p = .ok (sourceOf p) := by
  have hparts : p.findSome? (Instruction.capacityError? memory) = none := by
    refine List.findSome?_eq_none_iff.2 fun i hi => (hp i hi).capacityError?_eq_none ?_
    have hle : i.commands.length ≤ (sourceOf p).length :=
      (List.sublist_flatten_of_mem (List.mem_map_of_mem hi)).length_le
    exact Memory.objection?_eq_none_of_le h (by omega) (by omega)
  rw [sourceOf?, hparts, h]

end

/-- **The programs that texts compile to are the well-formed ones**, and each is what its own text
compiles to. That text is written if there is room for so many characters, and only then. -/
theorem compiles_iff_wellFormed (level : Int) (p : Program) :
    ((∃ text c, compile level text = .ok c ∧ c.program = p) ↔ WellFormed level p) ∧
      (WellFormed level p →
        (∃ c, compile level (sourceOf p) = .ok c ∧ c.program = p) ∧
        ∀ memory : Memory,
          (∀ text, sourceOf? memory p = .ok text →
            ∃ c, compile level text = .ok c ∧ c.program = p) ∧
          ((∃ text, sourceOf? memory p = .ok text) ↔
            memory.objection? (sourceOf p).length = none)) := by
  refine ⟨⟨fun h => ?_, fun h => ?_⟩, fun h => ⟨compile_sourceOf h, fun memory => ⟨?_, ?_⟩⟩⟩
  · obtain ⟨text, c, hc, rfl⟩ := h
    exact wellFormed_of_compile hc
  · exact ⟨sourceOf p, compile_sourceOf h⟩
  · intro text htext
    rw [(sourceOf?_eq_ok htext).1]
    exact compile_sourceOf h
  · constructor
    · rintro ⟨text, htext⟩
      exact (sourceOf?_eq_ok htext).2
    · intro hroom
      exact ⟨sourceOf p, sourceOf?_of_room h.args hroom⟩

/-- A loop around a transfer, which its text spells out as a loop of its own. -/
theorem compiles_iff_wellFormed_transfer :
    WellFormed 1 [⟨.scan, 1⟩, ⟨.beginLoop, 3⟩, ⟨.add, 1⟩, ⟨.scan, 1⟩, ⟨.endLoop, 3⟩] ∧
      ∃ c, compile 1 [',', '[', '[', '-', '>', '+', '<', ']', ',', ']'] = .ok c ∧
        c.program = [⟨.scan, 1⟩, ⟨.beginLoop, 3⟩, ⟨.add, 1⟩, ⟨.scan, 1⟩, ⟨.endLoop, 3⟩] := by
  obtain ⟨hiff, hsource⟩ := compiles_iff_wellFormed 1
    [⟨.scan, 1⟩, ⟨.beginLoop, 3⟩, ⟨.add, 1⟩, ⟨.scan, 1⟩, ⟨.endLoop, 3⟩]
  have hwell := hiff.1 ⟨[',', '[', '[', '>', '+', '<', '-', ']', ',', ']'], _, rfl, rfl⟩
  exact ⟨hwell, ((hsource hwell).2 .unlimited).1 _ rfl⟩

/-- **A well-formed program need not have a text that can be written**: no memory has room for as
many increments as there are words from zero on. -/
theorem not_forall_wellFormed_written :
    ¬ ∀ p : Program, WellFormed 1 p →
      ∃ room text c, sourceOf? ⟨some room⟩ p = .ok text ∧ compile 1 text = .ok c ∧
        c.program = p := by
  intro hwritten
  have hsound : (Block.nil.step ⟨.modify, wordBound⟩).Sound 1 :=
    ⟨trivial, ⟨rfl, (by decide : wordBound ≠ 0), nofun⟩, nofun⟩
  obtain ⟨room, text, c, htext, -⟩ := hwritten [⟨.modify, wordBound⟩] hsound.wellFormed
  cases htext

end TapeLang
