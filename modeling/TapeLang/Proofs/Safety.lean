import TapeLang.Proofs.Reports
import TapeLang.Proofs.WellFormed

/-!
# Compiled programs stay in bounds

Nothing checks the jumps of a program while it runs, and negative indices are valid ones. What a
text compiles to never makes use of that: as its brackets are matched by their arguments, a run
stays between the first instruction and the end of the program, with the pointer on a cell
(`Stepwise.Safe`), and stops for few reasons only (`RunError.Permitted`), unless the memory runs out
(`RunError.WantsRoom`).
-/

set_option autoImplicit false

namespace TapeLang

/-- The errors of a run that goes by the rules. -/
inductive RunError.Permitted (options : Options) : RunError → Prop
  | tapeUnderflow (target : Int) (place : Place) : Permitted options (.tapeUnderflow target place)
  | inputExhausted (place : Place) : Permitted options (.inputExhausted place)
  | cellOverflow (cell value : Int) (place : Place) : options.allowOverflows = false →
      Permitted options (.cellOverflow cell value place)
  | stepLimit (limit : Int) (place : Place) : options.maxSteps = some limit →
      Permitted options (.stepLimit limit place)
  | readFailed : Permitted options .readFailed
  | pipeClosed : Permitted options .pipeClosed

/-- The run is at an instruction or behind the last one, the pointer is on a cell, and a bracket has
a partner to go on from. -/
structure Stepwise.Safe (program : Program) (options : Options) (index : Int) (s : State) :
    Prop where
  nonneg : 0 ≤ index
  le_length : index ≤ program.length
  inside : s.Inside
  begins : ∀ j : Nat, index = j → ∀ i, program[j]? = some i → i.kind = .beginLoop →
    ∃ k, loopBrackets.Pairs program j k ∧ (limitReached? options s = none →
      step program.toArray options index s
        = .next ((if s.tape.get s.pointer = 0 then k else j : Nat) + 1 : Nat) s.tick)
  ends : ∀ k : Nat, index = k → ∀ i, program[k]? = some i → i.kind = .endLoop →
    ∃ j, loopBrackets.Pairs program j k ∧ (limitReached? options s = none →
      step program.toArray options index s
        = .next ((if s.tape.get s.pointer = 0 then k else j : Nat) + 1 : Nat) s.tick)

/-! ## Failures -/

namespace State

variable {s : State} {options : Options} {index : Int} {f : Failure}

theorem store_ne_error (hs : s.Inside) (value : UInt8) : s.store value ≠ .error f := by
  unfold store
  rw [hs.get?_eq]
  simp

theorem permitted_modify {amount : Int} (hs : s.Inside)
    (h : s.modify (!options.allowOverflows) amount index = .error f) :
    f.error.Permitted options ∧ f.state.Inside := by
  unfold modify at h
  rw [hs.get?_eq] at h
  simp only at h
  split at h
  · rename_i hchecked
    cases h
    simp only [Bool.and_eq_true, Bool.not_eq_true'] at hchecked
    exact ⟨.cellOverflow _ _ _ hchecked.1, hs⟩
  · cases h

theorem permitted_shift {distance : Int} (hs : s.Inside)
    (hroom : s.tape.refusal? s.memory (s.pointer + distance) = none)
    (h : s.shift distance index = .error f) : f.error.Permitted options ∧ f.state.Inside := by
  unfold shift at h
  simp only [reach_eq_ok hroom] at h
  split at h
  · cases h
    exact ⟨.tapeUnderflow _ _, hs⟩
  · cases h

theorem permitted_transfer {sign distance : Int} (hs : s.Inside)
    (hroom : s.tape.refusal? s.memory (s.pointer + distance) = none)
    (h : s.transfer (!options.allowOverflows) sign distance index = .error f) :
    f.error.Permitted options ∧ f.state.Inside := by
  unfold transfer at h
  simp only [reach_eq_ok hroom] at h
  split at h
  · cases h
    exact ⟨.tapeUnderflow _ _, hs⟩
  · have hs' := hs.extend (s.pointer + distance)
    have hget := hs'.get?_eq
    simp only at hget
    rw [hget] at h
    simp only at h
    split at h
    · rename_i hchecked
      cases h
      simp only [Bool.and_eq_true, Bool.not_eq_true'] at hchecked
      exact ⟨.cellOverflow _ _ _ hchecked.1, hs'⟩
    · cases h

theorem permitted_print {count : Int} (hs : s.Inside) (h : s.print count = .error f) :
    f.error.Permitted options ∧ f.state.Inside := by
  unfold print at h
  rw [hs.get?_eq] at h
  simp only at h
  split at h
  · cases h
  · cases h
    exact ⟨.pipeClosed, hs⟩

theorem permitted_scan (hs : s.Inside) (h : s.scan index = .error f) :
    f.error.Permitted options ∧ f.state.Inside := by
  unfold scan at h
  split at h
  · cases h
    exact ⟨.readFailed, hs⟩
  · cases h
    exact ⟨.inputExhausted _, hs⟩
  · rename_i byte input _
    exact absurd h (store_ne_error (s := { s with input }) hs byte)

theorem Inside.get_eq (hs : s.Inside) : s.tape.get s.pointer = s.view.cell := by
  rw [hs.pointer_eq]
  rfl

end State

namespace Stepwise

variable {options : Options} {index : Int} {s s' : State} {i : Instruction} {error : RunError}

theorem permitted_of_room (hs : s.Inside) (hroom : i.refusal? s = none)
    (h : execute (!options.allowOverflows) i index s = .failed error s') :
    error.Permitted options ∧ s'.Inside := by
  obtain ⟨kind, arg⟩ := i
  cases kind with
  | modify => exact State.permitted_modify hs (failed_of_goOn h)
  | shift => exact State.permitted_shift hs hroom (failed_of_goOn h)
  | print => exact State.permitted_print hs (failed_of_goOn h)
  | scan => exact State.permitted_scan hs (failed_of_goOn h)
  | clear => exact absurd (failed_of_goOn h) (State.store_ne_error hs 0)
  | add => exact State.permitted_transfer hs hroom (failed_of_goOn h)
  | sub => exact State.permitted_transfer hs hroom (failed_of_goOn h)
  | beginLoop =>
    rw [execute_beginLoop hs] at h
    cases h
  | endLoop =>
    rw [execute_endLoop hs] at h
    cases h

/-- Only for want of room does an instruction fail for another reason. -/
theorem permitted_of_execute (hs : s.Inside)
    (h : execute (!options.allowOverflows) i index s = .failed error s') :
    (error.Permitted options ∨ error.WantsRoom s.memory) ∧ s'.Inside := by
  cases hroom : i.refusal? s with
  | none =>
    obtain ⟨herror, hs'⟩ := permitted_of_room hs hroom h
    exact ⟨.inl herror, hs'⟩
  | some error =>
    rw [execute_of_refusal? hroom] at h
    cases h
    obtain ⟨target, -, hrefused⟩ := Option.bind_eq_some_iff.1 hroom
    exact ⟨.inr ⟨error, rfl, Tape.refusal?_cells hrefused⟩, hs⟩

/-- Only the end of the program ends a run well. -/
theorem execute_ne_done {checked : Bool} (hs : s.Inside) :
    execute checked i index s ≠ .done s' := by
  obtain ⟨kind, arg⟩ := i
  by_cases hi : kind.isLoop = false
  · cases hroom : Instruction.refusal? ⟨kind, arg⟩ s with
    | some error => simp [execute_of_refusal? hroom]
    | none =>
      obtain ⟨effect, hexec, -⟩ := execute_eq_goOn (i := ⟨kind, arg⟩) checked index hi hs hroom
      rw [hexec]
      cases effect <;> simp [goOn]
  · cases kind with
    | beginLoop => simp [execute_beginLoop hs]
    | endLoop => simp [execute_endLoop hs]
    | _ => exact absurd rfl hi

/-! ## One step -/

section
variable {program : Array Instruction}

variable (options s) in
/-- From the first instruction on, a step is that of an instruction, unless the run is over. -/
theorem step_cases (h₀ : 0 ≤ index) (hle : index ≤ program.size) :
    step program options index s = .done s ∨
    (∃ limit, options.maxSteps = some limit ∧
      step program options index s = .failed (.stepLimit limit ⟨s.pointer, index⟩) s) ∨
    ∃ (j : Nat) (i : Instruction), index = j ∧ program[j]? = some i ∧
      step program options index s = execute (!options.allowOverflows) i index s := by
  obtain ⟨j, rfl⟩ := Int.eq_ofNat_of_zero_le h₀
  rcases Nat.lt_or_ge j program.size with hlt | hge
  · cases hlimit : limitReached? options s with
    | none =>
      have hi := Array.getElem?_eq_getElem hlt
      exact .inr (.inr ⟨j, program[j], rfl, hi, step_eq_execute hlimit hi⟩)
    | some limit =>
      exact .inr (.inl ⟨limit, maxSteps_of_limitReached? hlimit,
        step_of_limitReached? (Int.ofNat_lt.2 hlt) hlimit⟩)
  · exact .inl (step_of_size_le hge)

end

section
variable {program : Program} {level : Int} (hp : WellFormed level program)
include hp

/-- Either bracket of a loop leads behind one of the two. -/
theorem execute_of_pairs {checked : Bool} {j k place : Nat} (hpair : loopBrackets.Pairs program j k)
    (hplace : place = j ∨ place = k) (hi : program[place]? = some i) (hs : s.Inside) :
    execute checked i place s
      = .next ((if s.tape.get s.pointer = 0 then k else j : Nat) + 1 : Nat) s.tick := by
  obtain ⟨hj, hk, -⟩ := hp.jumps j k hpair
  rw [hs.get_eq]
  rcases hplace with rfl | rfl
  · obtain rfl := Option.some_inj.1 (hi.symm.trans hj)
    exact execute_begin hs place k
  · obtain rfl := Option.some_inj.1 (hi.symm.trans hk)
    exact execute_end hs j place

/-- A step from within the program stays within it. -/
theorem bounds_of_next {j : Nat} {checked : Bool} {index' : Int} (hi : program[j]? = some i)
    (hs : s.Inside) (h : execute checked i j s = .next index' s') :
    0 ≤ index' ∧ index' ≤ program.length := by
  obtain ⟨hj, -⟩ := List.getElem?_eq_some_iff.1 hi
  cases hloop : i.kind.isLoop with
  | false =>
    obtain ⟨-, -, hnext⟩ := act_of_execute hloop hs h
    omega
  | true =>
    obtain ⟨k, l, hpair, hplace⟩ := hp.exists_pairs hi hloop
    rw [execute_of_pairs hp hpair hplace hi hs] at h
    cases h
    have hkl := hpair.lt
    have hl := hpair.lt_length
    constructor
    · omega
    · split <;> omega

theorem safe_of_bounds (h₀ : 0 ≤ index) (hle : index ≤ program.length) (hs : s.Inside) :
    Safe program options index s where
  nonneg := h₀
  le_length := hle
  inside := hs
  begins := by
    rintro j rfl i hi hkind
    obtain ⟨k, hpair⟩ := hp.nested.exists_close hi (by simp [loopBrackets, hkind])
    refine ⟨k, hpair, fun hlimit => ?_⟩
    rw [step_eq_execute hlimit (by simpa using hi)]
    exact execute_of_pairs hp hpair (.inl rfl) hi hs
  ends := by
    rintro k rfl i hi hkind
    obtain ⟨j, hpair⟩ := hp.nested.exists_open hi (by simp [loopBrackets, hkind])
    refine ⟨j, hpair, fun hlimit => ?_⟩
    rw [step_eq_execute hlimit (by simpa using hi)]
    exact execute_of_pairs hp hpair (.inr rfl) hi hs

theorem safe_start (options : Options) (hs : s.Inside) : Safe program options 0 s :=
  safe_of_bounds hp (Int.le_refl 0) (Int.natCast_nonneg _) hs

/-! ## Runs -/

omit hp in
/-- Wherever a run goes on, it has executed the instruction that it was at. -/
theorem exists_place_of_next? {c d : Int × State} (hc : Safe program options c.1 c.2)
    (h : next? program.toArray options c = some d) :
    ∃ (j : Nat) (i : Instruction), c.1 = j ∧ program[j]? = some i ∧
      execute (!options.allowOverflows) i j c.2 = .next d.1 d.2 := by
  have hstep := step_of_next? h
  have hle : c.1 ≤ program.toArray.size := by simpa using hc.le_length
  rcases step_cases options c.2 hc.nonneg hle with hdone | ⟨_, -, hfailed⟩ | ⟨j, i, hj, hi, hexec⟩
  · rw [hdone] at hstep
    cases hstep
  · rw [hfailed] at hstep
    cases hstep
  · rw [hexec, hj] at hstep
    exact ⟨j, i, hj, by simpa using hi, hstep⟩

theorem safe_next {c d : Int × State} (hc : Safe program options c.1 c.2)
    (h : next? program.toArray options c = some d) : Safe program options d.1 d.2 := by
  obtain ⟨j, i, -, hi, hexec⟩ := exists_place_of_next? hc h
  obtain ⟨h₀, hle⟩ := bounds_of_next hp hi hc.inside hexec
  exact safe_of_bounds hp h₀ hle (inside_of_execute hc.inside hexec)

omit hp in
theorem permitted_of_stop? {c : Int × State} {ending : Ending} (hc : Safe program options c.1 c.2)
    (h : stop? program.toArray options c = some (ending, s)) :
    s.Inside ∧ (ending = .completed ∨
      ∃ error, ending = .failed error ∧
        (error.Permitted options ∨ error.WantsRoom c.2.memory)) := by
  unfold stop? at h
  have hle : c.1 ≤ program.toArray.size := by simpa using hc.le_length
  rcases step_cases options c.2 hc.nonneg hle with
    hdone | ⟨limit, hlimit, hfailed⟩ | ⟨j, i, -, -, hexec⟩
  · rw [hdone] at h
    cases h
    exact ⟨hc.inside, .inl rfl⟩
  · rw [hfailed] at h
    cases h
    exact ⟨hc.inside, .inr ⟨_, rfl, .inl (.stepLimit limit _ hlimit)⟩⟩
  · rw [hexec] at h
    cases hout : execute (!options.allowOverflows) i c.1 c.2 with
    | next index s' =>
      rw [hout] at h
      cases h
    | done s' => exact absurd hout (execute_ne_done hc.inside)
    | failed error s' =>
      rw [hout] at h
      cases h
      obtain ⟨herror, hs⟩ := permitted_of_execute hc.inside hout
      exact ⟨hs, .inr ⟨error, rfl, herror⟩⟩

end

end Stepwise

/-- **Compiled programs never go wild**: wherever a run comes by, it is in bounds and its brackets
lead to their partners, and it ends for a permitted reason only, unless its tape outgrows a memory
that has bounds. -/
theorem compiled_runs_safe {level : Int} {text : List Char} {c : Compilation} {options : Options}
    {input : Input} {output : Output} {memory : Memory} {m : Machine}
    (hc : compile level text = .ok c)
    (hm : Machine.new c.program options input output memory = .ok m)
    (hengine : options.engine = .stepwise) :
    (∀ index s, m.Reaches index s → Stepwise.Safe c.program options index s) ∧
      ∀ rep, m.Ends rep → rep.state.Inside ∧
        (rep.ending = .completed ∨
          ∃ error, rep.ending = .failed error ∧
            (error.Permitted options ∨ memory ≠ .unlimited ∧ error.WantsRoom memory)) := by
  have hp := wellFormed_of_compile hc
  have hmemory := Machine.memory_of_new hm
  obtain ⟨hprogram, rfl, hs, -, -⟩ := Machine.new_eq_ok hm
  have hstart := Stepwise.safe_start hp m.options hs
  have hafter {n : Nat} {d : Int × State}
      (h : Walk.after (Stepwise.next? c.program.toArray m.options) n (0, m.state) = some d) :
      Stepwise.Safe c.program m.options d.1 d.2 :=
    Walk.keeps (p := fun d => Stepwise.Safe c.program m.options d.1 d.2)
      (Stepwise.safe_next hp) hstart h
  constructor
  · intro index s h
    obtain ⟨n, h⟩ := (Machine.reaches_iff hengine).1 h
    rw [hprogram] at h
    exact hafter h
  · intro rep h
    obtain ⟨n, d, h, hstop⟩ := (Machine.ends_iff hengine).1 ⟨rep.events, h⟩
    rw [hprogram] at h hstop
    have hd := (Stepwise.memory_of_after h).trans hmemory
    obtain ⟨hinside, hending⟩ := Stepwise.permitted_of_stop? (hafter h) hstop
    rw [hd] at hending
    refine ⟨hinside, hending.imp_right fun ⟨error, hfailed, herror⟩ => ⟨error, hfailed, ?_⟩⟩
    exact herror.imp_right fun hroom => ⟨hroom.ne_unlimited, hroom⟩

/-- An echo that goes around its loop once. -/
theorem compiled_runs_safe_echo :
    ∃ c m, compile 1 [',', '[', '.', ',', ']'] = .ok c ∧
      Machine.new c.program {} { pending := [7, 0] } {} = .ok m ∧
      (∀ index s, m.Reaches index s → Stepwise.Safe c.program {} index s) ∧
        ∀ rep, m.Ends rep → rep.state.Inside ∧
          (rep.ending = .completed ∨
            ∃ error, rep.ending = .failed error ∧ error.Permitted {}) := by
  have hc : compile 1 [',', '[', '.', ',', ']'] = .ok ⟨[⟨.scan, 1⟩, ⟨.beginLoop, 3⟩, ⟨.print, 1⟩,
    ⟨.scan, 1⟩, ⟨.endLoop, 3⟩], ⟨1, 0⟩⟩ := rfl
  have hm : ∃ m, Machine.new [⟨.scan, 1⟩, ⟨.beginLoop, 3⟩, ⟨.print, 1⟩, ⟨.scan, 1⟩, ⟨.endLoop, 3⟩]
    {} { pending := [7, 0] } {} = .ok m := ⟨_, rfl⟩
  obtain ⟨m, hm⟩ := hm
  obtain ⟨hsafe, hends⟩ := compiled_runs_safe hc hm rfl
  refine ⟨_, m, hc, hm, hsafe, fun rep hrep => ?_⟩
  obtain ⟨hinside, hending⟩ := hends rep hrep
  refine ⟨hinside, hending.imp_right fun ⟨error, hfailed, herror⟩ => ⟨error, hfailed, ?_⟩⟩
  exact herror.resolve_right fun hroom => hroom.1 rfl

end TapeLang
