import TapeLang.Proofs.Safety

/-!
# Leaving loops

Every step of a compiled program leads behind an instruction, and behind the end of a loop it leads
over two edges only, both taken on a zero cell: from that end and from the begin of the same loop
(`Stepwise.exists_arrives`). The instructions that stand for whole loops clear the current cell. So
where a loop has just been left the current cell is zero (`Stepwise.Settled`), wherever a run comes
by (`compiled_runs_settle`).
-/

set_option autoImplicit false

namespace TapeLang

/-- An instruction that stands for a loop leaves a zero in the current cell. -/
theorem View.cell_of_act {checked : Bool} {i : Instruction} {v w : View}
    (h : v.act checked i = some w) (hi : i.kind.isFused) : w.cell = 0 := by
  obtain ⟨kind, arg⟩ := i
  -- the target of a move is written first, so this holds of a move to the cell itself too
  have hmove {sign : Int} (h : v.transfer checked sign arg = some w) : w.cell = 0 := by
    obtain ⟨_, -, -, rfl⟩ := transfer_eq_some.1 h
    exact cell_put (v := v.put _ _) 0
  cases kind with
  | clear =>
    cases h
    exact cell_put 0
  | add => exact hmove h
  | sub => exact hmove h
  | _ => cases hi

namespace Stepwise

/-- Directly behind the end of a loop, and behind an instruction that stands for a loop, the current
cell is zero. -/
def Settled (program : Program) (index : Int) (s : State) : Prop :=
  ∀ (j : Nat) (i : Instruction), index = j + 1 → program[j]? = some i →
    i.kind = .endLoop ∨ i.kind.isFused → s.tape.get? s.pointer = some 0

/-- How a step leads behind the instruction at `j`. -/
inductive Arrives (program : Program) (checked : Bool) (c d : Int × State) (j : Nat) : Prop
  /-- That instruction is no jump and has been executed. -/
  | plain {i : Instruction} : c.1 = j → program[j]? = some i → i.kind.isLoop = false →
      execute checked i j c.2 = .next d.1 d.2 → Arrives program checked c d j
  /-- A loop begins there, and one of its jumps has led into it. -/
  | entered {k : Nat} : loopBrackets.Pairs program j k → c.1 = j ∨ c.1 = k →
      c.2.view.cell ≠ 0 → d.2 = c.2.tick → Arrives program checked c d j
  /-- A loop ends there, and one of its jumps has led out of it. -/
  | left {k : Nat} : loopBrackets.Pairs program k j → c.1 = k ∨ c.1 = j →
      c.2.view.cell = 0 → d.2 = c.2.tick → Arrives program checked c d j

variable {program : Program} {level : Int} {options : Options} {checked : Bool}
  {i : Instruction} {c d : Int × State} {j : Nat}

/-! ## Steps -/

/-- **Every step leads behind an instruction**, by executing it or by a jump of its loop. -/
theorem exists_arrives (hp : WellFormed level program) (hc : Safe program options c.1 c.2)
    (h : next? program.toArray options c = some d) :
    ∃ j : Nat, d.1 = j + 1 ∧ Arrives program (!options.allowOverflows) c d j := by
  obtain ⟨n, i, hn, hi, hexec⟩ := exists_place_of_next? hc h
  cases hkind : i.kind.isLoop with
  | false =>
    obtain ⟨-, -, hnext⟩ := act_of_execute hkind hc.inside hexec
    exact ⟨n, hnext, .plain hn hi hkind hexec⟩
  | true =>
    obtain ⟨j, k, hpair, hplace⟩ := hp.exists_pairs hi hkind
    rw [execute_of_pairs hp hpair hplace hi hc.inside, hc.inside.get_eq, Outcome.next.injEq]
      at hexec
    obtain ⟨hindex, hstate⟩ := hexec
    have hfrom : c.1 = j ∨ c.1 = k := by omega
    by_cases hcell : c.2.view.cell = 0
    · rw [if_pos hcell] at hindex
      exact ⟨k, by omega, .left hpair hfrom hcell hstate.symm⟩
    · rw [if_neg hcell] at hindex
      exact ⟨j, by omega, .entered hpair hfrom hcell hstate.symm⟩

theorem Arrives.settled (h : Arrives program checked c d j) (hd : d.1 = j + 1)
    (hc : c.2.Inside) (hinside : d.2.Inside) : Settled program d.1 d.2 := by
  intro j' i hj' hi hkind
  obtain rfl : j' = j := by omega
  rw [hinside.get?_eq, Option.some_inj]
  cases h with
  | plain hplace hi' hloop hexec =>
    obtain rfl := Option.some_inj.1 (hi.symm.trans hi')
    have hfused : i.kind.isFused :=
      hkind.resolve_left fun hend => by simp [hend, Kind.isLoop] at hloop
    exact View.cell_of_act (act_of_execute hloop hc hexec).1 hfused
  | entered hpair =>
    -- behind the begin of a loop nothing has been left
    obtain ⟨b, _, hb, -, hopens, -⟩ := hpair
    obtain rfl := Option.some_inj.1 (hi.symm.trans hb)
    rw [beq_iff_eq.1 hopens] at hkind
    rcases hkind with hend | hfused
    · cases hend
    · cases hfused
  | left hpair hfrom hcell hstate =>
    rw [hstate]
    exact hcell

/-! ## Runs -/

theorem settled_start (s : State) : Settled program 0 s := by
  intro j i hj
  omega

theorem settled_next (hp : WellFormed level program) (hc : Safe program options c.1 c.2)
    (h : next? program.toArray options c = some d) : Settled program d.1 d.2 := by
  obtain ⟨j, hd, harrives⟩ := exists_arrives hp hc h
  exact harrives.settled hd hc.inside (safe_next hp hc h).inside

end Stepwise

/-- **Loops leave a zero behind**: wherever the run of a compiled program is directly behind the end
of a loop or an instruction that stands for a loop, the cell under the pointer is zero. -/
theorem compiled_runs_settle {level : Int} {text : List Char} {c : Compilation} {options : Options}
    {input : Input} {output : Output} {memory : Memory} {m : Machine}
    (hc : compile level text = .ok c)
    (hm : Machine.new c.program options input output memory = .ok m)
    (hengine : options.engine = .stepwise) :
    ∀ index s, m.Reaches index s → Stepwise.Settled c.program index s := by
  have hp := wellFormed_of_compile hc
  obtain ⟨hprogram, rfl, hs, -, -⟩ := Machine.new_eq_ok hm
  intro index s h
  obtain ⟨n, h⟩ := (Machine.reaches_iff hengine).1 h
  rw [hprogram] at h
  have hstart := Stepwise.safe_start hp m.options hs
  exact (Walk.keeps
    (p := fun d => Stepwise.Safe c.program m.options d.1 d.2 ∧ Stepwise.Settled c.program d.1 d.2)
    (fun hd hnext => ⟨Stepwise.safe_next hp hd.1 hnext, Stepwise.settled_next hp hd.1 hnext⟩)
    ⟨hstart, Stepwise.settled_start m.state⟩ h).2

/-- A loop that is passed over, and a move that stands for a loop. -/
theorem compiled_runs_settle_passed :
    ∃ c m s t, compile 1 ['[', '.', ']', '+', '[', '>', '-', '<', '-', ']'] = .ok c ∧
      Machine.new c.program { chunkSize := 1 } {} {} = .ok m ∧
      c.program[2]? = some ⟨.endLoop, 2⟩ ∧ m.Reaches 3 s ∧ s.tape.get? s.pointer = some 0 ∧
      c.program[4]? = some ⟨.sub, 1⟩ ∧ m.Reaches 5 t ∧ t.tape.get? t.pointer = some 0 := by
  have hc : compile 1 ['[', '.', ']', '+', '[', '>', '-', '<', '-', ']'] = .ok ⟨[⟨.beginLoop, 2⟩,
    ⟨.print, 1⟩, ⟨.endLoop, 2⟩, ⟨.modify, 1⟩, ⟨.sub, 1⟩], ⟨2, 1⟩⟩ := rfl
  have hm : ∃ m s t events events', Machine.new [⟨.beginLoop, 2⟩, ⟨.print, 1⟩, ⟨.endLoop, 2⟩,
      ⟨.modify, 1⟩, ⟨.sub, 1⟩] { chunkSize := 1 } {} {} = .ok m ∧
    m.runFor 1 = ⟨.unfinished 3, s, events⟩ ∧ m.runFor 3 = ⟨.unfinished 5, t, events'⟩ :=
    ⟨_, _, _, _, _, rfl, rfl, rfl⟩
  obtain ⟨m, s, t, events, events', hm, hs, ht⟩ := hm
  have hsettle := compiled_runs_settle hc hm rfl
  exact ⟨_, m, s, t, hc, hm, rfl, ⟨1, events, hs⟩,
    hsettle 3 s ⟨1, events, hs⟩ 2 ⟨.endLoop, 2⟩ rfl rfl (.inl rfl), rfl, ⟨3, events', ht⟩,
    hsettle 5 t ⟨3, events', ht⟩ 4 ⟨.sub, 1⟩ rfl rfl (.inr rfl)⟩

end TapeLang
