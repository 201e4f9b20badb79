import TapeLang.Proofs.Compiling
import TapeLang.Proofs.Reaching

/-!
# Reports of machines

A machine that bears the code of a block ends with a report if and only if the block comes to a
result, and the report tells the result (`Bears.ends_of_runs`, `Bears.runs_of_ends`).
`Machine.Starts` says which machine is started for a text at a level; it bears the lowered block of
the text.
-/

set_option autoImplicit false

namespace TapeLang

/-- A fresh machine of the stepwise engine for a text compiled at a level, without a step limit and
with a tape that grows without bounds. -/
structure Machine.Starts (level : Int) (text : List Char) (options : Options) (stdin : List UInt8)
    (m : Machine) : Prop where
  compiled : ∃ c, compile level text = .ok c ∧
    Machine.new c.program options { pending := stdin } {} = .ok m
  engine : options.engine = .stepwise
  unlimited : options.maxSteps = none

/-- A machine of the stepwise engine without a step limit and in a memory without bounds, with the
code of a block as its program and the pointer on a cell. -/
structure Machine.Bears (m : Machine) (b : Block) : Prop where
  engine : m.options.engine = .stepwise
  unlimited : m.options.maxSteps = none
  program : m.program.toList = b.code
  plain : b.Every (·.kind.isLoop = false)
  ample : m.state.Ample

/-- Two states have the same output, pointer, cells and position in the input. -/
structure State.SameResults (s t : State) : Prop where
  output : s.output.written = t.output.written
  pointer : s.pointer = t.pointer
  nonzero : s.tape.nonzero = t.tape.nonzero
  consumed : s.input.consumed = t.input.consumed

/-- The run arrives at an instruction in a state. -/
def Machine.Visits (m : Machine) (j : Nat) (s : State) : Prop :=
  ∃ fuel events, m.runFor fuel = ⟨.unfinished j, s, events⟩

/-- The run stops at an `add` or `sub` on a zero cell, as its target is left of the first cell. -/
def Machine.StopsAtIdleMove (m : Machine) (rep : Report) : Prop :=
  ∃ (j : Nat) (i : Instruction), m.program[j]? = some i ∧ (i.kind = .add ∨ i.kind = .sub) ∧
    rep.state.tape.get rep.state.pointer = 0 ∧ rep.state.pointer + i.arg < 0 ∧
    rep.ending = .failed (.tapeUnderflow (rep.state.pointer + i.arg) ⟨rep.state.pointer, j⟩)

/-- The report of a machine tells a result that is come to in a number of steps. -/
inductive Machine.Tells (m : Machine) (n : Nat) : Result → Report → Prop
  | done {rep : Report} {v : View} :
      rep.ending = .completed → rep.state.Inside → rep.state.steps = n → rep.state.view = v →
        Tells m n (.done v) rep
  | stuck {rep : Report} {j : Nat} {i : Instruction} {s : State} {error : RunError} :
      m.program[j]? = some i → s.Ample → s.steps = n → rep.ending = .failed error →
        Stepwise.execute (!m.options.allowOverflows) i j s = .failed error rep.state →
        Tells m n (.stuck i s.view) rep

/-! ## Fresh machines -/

theorem Machine.new_eq_ok {program : Program} {options : Options} {input : Input}
    {output : Output} {memory : Memory} {m : Machine}
    (h : Machine.new program options input output memory = .ok m) :
    m.program = program.toArray ∧ m.options = options ∧ m.state.Inside ∧ m.state.steps = 0 ∧
      m.state.view = ⟨fun _ => 0, 0, input, output⟩ := by
  unfold Machine.new at h
  split at h
  · cases h
  · split at h
    · rename_i hpos
      split at h
      · cases h
      · cases h
        refine ⟨rfl, rfl, ⟨Int.le_refl 0, ?_⟩, rfl, ?_⟩
        · show (0 : Int) < ((Tape.blank options.chunkSize.toNat _).size : Int)
          rw [Tape.size_blank]
          omega
        · simp only [State.view, View.mk.injEq, and_true]
          exact ⟨funext fun place => Tape.get_blank _ _ place, rfl⟩
    · cases h

theorem Machine.memory_of_new {program : Program} {options : Options} {input : Input}
    {output : Output} {memory : Memory} {m : Machine}
    (h : Machine.new program options input output memory = .ok m) : m.state.memory = memory := by
  unfold Machine.new at h
  split at h
  · cases h
  · split at h
    · split at h <;> cases h
      rfl
    · cases h

/-- The program does not decide which machines there are. -/
theorem Machine.exists_new_of_program {program : Program} {options : Options} {input : Input}
    {output : Output} {memory : Memory} {m : Machine}
    (h : Machine.new program options input output memory = .ok m) (program' : Program) :
    ∃ m', Machine.new program' options input output memory = .ok m' := by
  unfold Machine.new at h ⊢
  split at h
  · cases h
  · split at h
    · rename_i hpos
      rw [dif_pos hpos]
      split at h
      · cases h
      · exact ⟨_, rfl⟩
    · cases h

/-- Whatever compiles can be started. -/
theorem Machine.exists_starts {level : Int} {text : List Char} {c : Compilation}
    (h : compile level text = .ok c) (stdin : List UInt8) :
    ∃ m, Machine.Starts level text {} stdin m :=
  ⟨_, ⟨c, h, rfl⟩, rfl, rfl⟩

/-! ## What a report tells -/

namespace State

variable {s t : State}

theorem SameResults.of_view (hs : s.Inside) (ht : t.Inside) (h : s.view = t.view) :
    s.SameResults t where
  output := congrArg (·.output.written) h
  pointer := by rw [hs.pointer_eq, ht.pointer_eq, h]
  nonzero := Tape.nonzero_congr fun place => congrFun (congrArg View.cells h) place
  consumed := congrArg (·.input.consumed) h

theorem SameResults.symm (h : s.SameResults t) : t.SameResults s :=
  ⟨h.output.symm, h.pointer.symm, h.nonzero.symm, h.consumed.symm⟩

theorem SameResults.trans {u : State} (h : s.SameResults t) (h' : t.SameResults u) :
    s.SameResults u :=
  ⟨h.output.trans h'.output, h.pointer.trans h'.pointer, h.nonzero.trans h'.nonzero,
    h.consumed.trans h'.consumed⟩

end State

namespace Machine.Tells

variable {m : Machine} {n : Nat} {r : Result} {rep : Report}

theorem finish?_eq (h : m.Tells n r rep) (hreads : r.view.input.readsLeft = none) :
    rep.ending.finish? = r.finish? := by
  cases h with
  | done hending _ _ _ => rw [hending]; rfl
  | @stuck _ j i s error _ hs _ hending hexec =>
    rw [hending, Result.finish?]
    by_cases hi : i.kind = .scan
    · obtain ⟨rfl, -⟩ := Stepwise.failed_of_scan hs.inside hreads hi hexec
      rw [if_pos hi]
      rfl
    · rw [if_neg hi]
      cases error with
      | inputExhausted place => exact absurd (Stepwise.kind_of_inputExhausted hexec) hi
      | _ => rfl

theorem of_finish?_eq_some {f : Finish} (h : m.Tells n r rep)
    (hreads : r.view.input.readsLeft = none) (hf : r.finish? = some f) :
    rep.state.Inside ∧ rep.state.steps = n ∧ rep.state.view = r.view := by
  cases h with
  | done _ hs hn hview => exact ⟨hs, hn, hview⟩
  | @stuck _ j i s error _ hs hn _ hexec =>
    have hi : i.kind = .scan := by
      by_contra hi
      rw [Result.finish?, if_neg hi] at hf
      cases hf
    obtain ⟨-, hstate⟩ := Stepwise.failed_of_scan hs.inside hreads hi hexec
    rw [hstate]
    exact ⟨hs.inside, hn, rfl⟩

theorem of_isIdleMove (h : m.Tells n r rep) (hr : r.IsIdleMove) :
    m.StopsAtIdleMove rep ∧ rep.state.view = r.view := by
  obtain ⟨i, v, rfl, hi, hcell, hp⟩ := hr
  cases h with
  | @stuck _ j _ s error hprogram hs _ hending hexec =>
    rw [← hs.inside.pointer_eq] at hp
    obtain ⟨rfl, hstate⟩ := Stepwise.failed_of_move hi hp hexec
    refine ⟨⟨j, i, hprogram, hi, ?_, ?_, ?_⟩, by rw [hstate]; rfl⟩
    · rw [hstate, hs.inside.pointer_eq]
      exact hcell
    · rw [hstate]
      exact hp
    · rw [hstate]
      exact hending

end Machine.Tells

/-! ## Runs -/

/-- A run of the stepwise engine ends once. -/
theorem Machine.unique_of_stepwise {m : Machine} {rep rep' : Report}
    (hengine : m.options.engine = .stepwise) (hrep : m.Ends rep) (hrep' : m.Ends rep') :
    rep = rep' := by
  obtain ⟨fuel, rfl, hfinal⟩ := hrep
  obtain ⟨fuel', rfl, hfinal'⟩ := hrep'
  simp only [Machine.runFor_of_stepwise hengine] at hfinal hfinal' ⊢
  rw [← Stepwise.runFrom_of_isFinal hfinal fuel', ← Stepwise.runFrom_of_isFinal hfinal' fuel,
    Nat.add_comm]

namespace Machine.Bears

variable {m : Machine} {b : Block} {n : Nat} {r : Result} {rep : Report} (h : m.Bears b)
include h

theorem size_eq : m.program.size = b.size := by
  rw [← Block.length_code, ← h.program, Array.length_toList]

theorem lies : (Stepwise.platform m.program m.options h.unlimited).Lies b 0 := by
  have hcode : m.program.toList = [] ++ (b.code ++ []) := by
    rw [h.program, List.nil_append, List.append_nil]
  exact Stepwise.lies h.unlimited h.plain hcode

theorem stands :
    (Stepwise.platform m.program m.options h.unlimited).stands (0, m.state) 0 m.state.view :=
  ⟨rfl, h.ample, rfl⟩

/-- **A result of the block is reported**, and each of its instructions is counted. -/
theorem ends_of_runs (hr : b.runs (!m.options.allowOverflows) m.state.view n r)
    (hspins : ¬ r.Spins) : ∃ rep, m.Ends rep ∧ m.Tells (m.state.steps + n) r rep := by
  obtain ⟨⟨index, s⟩, hafter, hshows⟩ := Platform.reaches h.lies h.stands hr
  have hsteps : s.steps = m.state.steps + n := Stepwise.steps_of_after hafter
  have hends {ending : Ending} {s' : State}
      (hstop : Stepwise.stop? m.program m.options (index, s) = some (ending, s')) :
      ∃ events, m.Ends ⟨ending, s', events⟩ :=
    (Machine.ends_iff h.engine).2 ⟨n, _, hafter, hstop⟩
  cases r with
  | spins amount v => exact absurd ⟨amount, v, rfl⟩ hspins
  | done v =>
    obtain ⟨rfl, hs, rfl⟩ := hshows
    have hstep : Stepwise.step m.program m.options (0 + b.size : Nat) s = .done s :=
      Stepwise.step_of_size_le (by rw [h.size_eq, Nat.zero_add])
    obtain ⟨events, hrep⟩ := hends (by rw [Stepwise.stop?, hstep]; rfl)
    exact ⟨_, hrep, .done rfl hs.inside hsteps rfl⟩
  | stuck i v =>
    obtain ⟨j, ⟨rfl, hs, rfl⟩, ⟨hi, hkind⟩, hact⟩ := hshows
    obtain ⟨error, s', hexec⟩ := Stepwise.execute_of_act_eq_none (j : Int) hkind hs.inside hact
    have hstep : Stepwise.step m.program m.options j s = .failed error s' := by
      rw [Stepwise.step_of_getElem? h.unlimited hi]
      exact hexec
    obtain ⟨events, hrep⟩ := hends (by rw [Stepwise.stop?, hstep]; rfl)
    exact ⟨_, hrep, .stuck hi hs hsteps rfl hexec⟩

/-- **A report comes from a result of the block.** -/
theorem runs_of_ends (hrep : m.Ends rep) :
    ∃ n r, b.runs (!m.options.allowOverflows) m.state.view n r ∧ ¬ r.Spins ∧
      m.Tells (m.state.steps + n) r rep := by
  obtain ⟨fuel, rfl, hfinal⟩ := id hrep
  rw [Machine.runFor_of_stepwise h.engine] at hfinal
  have hnone := Stepwise.after_eq_none_of_isFinal (c := (0, m.state)) hfinal
  rcases Platform.result_or_runs_on h.lies h.stands fuel with ⟨n, r, hr, hspins⟩ | hsome
  · obtain ⟨rep', hrep', htells⟩ := h.ends_of_runs hr hspins
    rw [Machine.unique_of_stepwise h.engine hrep hrep']
    exact ⟨n, r, hr, hspins, htells⟩
  · rw [Stepwise.platform_next?, hnone] at hsome
    cases hsome

end Machine.Bears

namespace Machine.Starts

variable {level : Int} {text : List Char} {options : Options} {stdin : List UInt8} {m : Machine}
  {b : Block} {n : Nat} {r : Result} {rep : Report}

section
variable (h : Machine.Starts level text options stdin m)
include h

theorem parses : ∃ b, parse? text = some b := by
  obtain ⟨c, hc, -⟩ := h.compiled
  obtain ⟨b, hb, -⟩ := compile_eq_ok hc
  exact ⟨b, hb⟩

/-- What can be started at one level can be started at all of them. -/
theorem exists_of_level (level' : Int) : ∃ m', Machine.Starts level' text options stdin m' := by
  obtain ⟨c, hc, hnew⟩ := h.compiled
  obtain ⟨c', hc'⟩ := exists_compile_of_level hc level'
  obtain ⟨m', hm'⟩ := Machine.exists_new_of_program hnew c'.program
  exact ⟨m', ⟨c', hc', hm'⟩, h.engine, h.unlimited⟩

theorem options_eq : m.options = options := by
  obtain ⟨c, -, hnew⟩ := h.compiled
  exact (Machine.new_eq_ok hnew).2.1

theorem maxSteps_eq : m.options.maxSteps = none := by
  rw [h.options_eq]
  exact h.unlimited

theorem engine_eq : m.options.engine = .stepwise := by
  rw [h.options_eq, h.engine]

theorem runFor_eq (fuel : Nat) :
    m.runFor fuel = Stepwise.runFrom m.program m.options fuel 0 m.state #[] :=
  Machine.runFor_of_stepwise h.engine_eq fuel

theorem unique (hrep : m.Ends rep) {rep' : Report} (hrep' : m.Ends rep') : rep = rep' :=
  Machine.unique_of_stepwise h.engine_eq hrep hrep'

theorem stands :
    (Stepwise.platform m.program m.options h.maxSteps_eq).stands (0, m.state) 0
      (View.start stdin) := by
  obtain ⟨c, -, hnew⟩ := h.compiled
  obtain ⟨-, -, hs, -, hview⟩ := Machine.new_eq_ok hnew
  exact ⟨rfl, ⟨hs, Machine.memory_of_new hnew⟩, hview⟩

section
variable (hb : parse? text = some b)
include hb

theorem program_eq : m.program.toList = (b.lowered level).code := by
  obtain ⟨c, hc, hnew⟩ := h.compiled
  obtain ⟨b', hb', -, hcode⟩ := compile_eq_ok hc
  obtain rfl : b' = b := Option.some_inj.1 (hb'.symm.trans hb)
  obtain ⟨hprogram, -⟩ := Machine.new_eq_ok hnew
  rw [hprogram, ← hcode]

/-- A started machine bears the lowered block of its text. -/
theorem bears : m.Bears (b.lowered level) where
  engine := h.engine_eq
  unlimited := h.maxSteps_eq
  program := h.program_eq hb
  plain := (Block.isPlain_lowered level (isPlain_of_parse? hb)).mono fun _ hi => hi.1
  ample := h.stands.2.1

theorem lies :
    (Stepwise.platform m.program m.options h.maxSteps_eq).Lies (b.lowered level) 0 :=
  (h.bears hb).lies

end

theorem steps_eq : m.state.steps = 0 := by
  obtain ⟨c, -, hnew⟩ := h.compiled
  exact (Machine.new_eq_ok hnew).2.2.2.1

theorem runFor_after {c : Int × State}
    (hafter : Walk.after (Stepwise.next? m.program m.options) n (0, m.state)
      = some c) :
    ∃ events, ∀ fuel, m.runFor (n + fuel)
      = Stepwise.runFrom m.program m.options fuel c.1 c.2 events := by
  obtain ⟨events, hrun⟩ := Stepwise.runFrom_after hafter #[]
  refine ⟨events, fun fuel => ?_⟩
  rw [h.runFor_eq]
  exact hrun fuel

theorem visits_of_after {j : Nat} {s : State}
    (hafter : Walk.after (Stepwise.next? m.program m.options) n (0, m.state)
      = some ((j : Int), s)) : m.Visits j s := by
  obtain ⟨events, hrun⟩ := h.runFor_after hafter
  exact ⟨n + 0, events, hrun 0⟩

theorem after_of_visits {j : Nat} {s : State} (hv : m.Visits j s) :
    s.Ample ∧ ∃ n, Walk.after (Stepwise.next? m.program m.options) n (0, m.state)
      = some ((j : Int), s) := by
  obtain ⟨fuel, events, hrun⟩ := hv
  rw [h.runFor_eq] at hrun
  have hafter := Stepwise.after_of_unfinished (c := (0, m.state)) hrun
  refine ⟨Stepwise.ample_of_after h.stands.2.1 hafter, fuel, ?_⟩
  exact hafter

/-- A run that arrives at an instruction which fails ends there. -/
theorem ends_of_visits {j : Nat} {s s' : State} {i : Instruction} {error : RunError}
    (hv : m.Visits j s) (hi : m.program[j]? = some i)
    (hexec : Stepwise.execute (!m.options.allowOverflows) i j s = .failed error s') :
    ∃ rep, m.Ends rep ∧ rep.ending = .failed error ∧ rep.state = s' := by
  obtain ⟨-, n, hafter⟩ := h.after_of_visits hv
  have hstep : Stepwise.step m.program m.options j s = .failed error s' := by
    rw [Stepwise.step_of_getElem? h.maxSteps_eq hi]
    exact hexec
  obtain ⟨events, hrun⟩ := h.runFor_after hafter
  have hone := hrun 1
  rw [Stepwise.runFrom, hstep] at hone
  exact ⟨_, ⟨n + 1, hone, Ending.isFinal_failed error⟩, rfl, rfl⟩

/-- A run that arrives at a loop which never ends does not end. -/
theorem not_ends_of_shows (place : Nat) {c : Int × State} {amount : Int} {v : View}
    (hafter : Walk.after (Stepwise.next? m.program m.options) n (0, m.state) = some c)
    (hshows : (Stepwise.platform m.program m.options h.maxSteps_eq).Shows place c
      (.spins amount v)) : ¬ m.Ends rep := by
  intro h
  obtain ⟨fuel, rfl, hfinal⟩ := h
  rw [h.runFor_eq] at hfinal
  have hnone := Stepwise.after_eq_none_of_isFinal (c := (0, m.state)) hfinal
  have hsome : (Walk.after (Stepwise.next? m.program m.options) (n + fuel)
      (0, m.state)).isSome := by
    rw [Walk.after_trans hafter]
    exact hshows.runs_on
  have hle := Walk.isSome_after_of_le hsome (Nat.le_add_left fuel n)
  rw [hnone] at hle
  cases hle

variable (hb : parse? text = some b)
include hb

/-- **A result of the block is reported.** -/
theorem ends_of_runs
    (hr : (b.lowered level).runs (!options.allowOverflows) (View.start stdin) n r)
    (hspins : ¬ r.Spins) : ∃ rep, m.Ends rep ∧ m.Tells n r rep := by
  rw [← h.options_eq, ← h.stands.2.2] at hr
  obtain ⟨rep, hrep, htells⟩ := (h.bears hb).ends_of_runs hr hspins
  rw [h.steps_eq, Nat.zero_add] at htells
  exact ⟨rep, hrep, htells⟩

/-- **A report comes from a result of the block.** -/
theorem runs_of_ends (hrep : m.Ends rep) :
    ∃ n r, (b.lowered level).runs (!options.allowOverflows) (View.start stdin) n r ∧
      ¬ r.Spins ∧ m.Tells n r rep := by
  obtain ⟨n, r, hr, hspins, htells⟩ := (h.bears hb).runs_of_ends hrep
  rw [h.options_eq, h.stands.2.2] at hr
  rw [h.steps_eq, Nat.zero_add] at htells
  exact ⟨n, r, hr, hspins, htells⟩

omit h hb in
theorem readsLeft_of_runs (hr : b.runs (!options.allowOverflows) (View.start stdin) n r) :
    r.view.input.readsLeft = none :=
  b.keeps (fun _ _ _ => View.readsLeft_act) hr rfl

theorem ends_of_finish? {f : Finish}
    (hr : (b.lowered level).runs (!options.allowOverflows) (View.start stdin) n r)
    (hf : r.finish? = some f) :
    ∃ rep, m.Ends rep ∧ rep.ending.finish? = some f ∧
      rep.state.Inside ∧ rep.state.steps = n ∧ rep.state.view = r.view := by
  have hreads := readsLeft_of_runs hr
  obtain ⟨rep, hends, htells⟩ := h.ends_of_runs hb hr (Result.not_spins_of_finish? hf)
  exact ⟨rep, hends, (htells.finish?_eq hreads).trans hf, htells.of_finish?_eq_some hreads hf⟩

theorem runs_of_finish? {f : Finish} (hrep : m.Ends rep) (hf : rep.ending.finish? = some f) :
    ∃ n r, (b.lowered level).runs (!options.allowOverflows) (View.start stdin) n r ∧
      r.finish? = some f ∧ rep.state.Inside ∧ rep.state.steps = n ∧ rep.state.view = r.view := by
  obtain ⟨n, r, hr, -, htells⟩ := h.runs_of_ends hb hrep
  have hreads := readsLeft_of_runs hr
  rw [htells.finish?_eq hreads] at hf
  exact ⟨n, r, hr, hf, htells.of_finish?_eq_some hreads hf⟩

/-- A run that is stuck has arrived at the instruction. -/
theorem visits_of_runs {i : Instruction} {v : View}
    (hr : (b.lowered level).runs (!options.allowOverflows) (View.start stdin) n (.stuck i v)) :
    ∃ j s, m.Visits j s ∧ m.program[j]? = some i ∧ s.Inside ∧ s.view = v := by
  rw [← h.options_eq] at hr
  obtain ⟨⟨_, s⟩, hafter, j, ⟨rfl, hs, hview⟩, ⟨hi, -⟩, -⟩ :=
    Platform.reaches (h.lies hb) h.stands hr
  exact ⟨j, s, h.visits_of_after hafter, hi, hs.inside, hview⟩

end

end Machine.Starts

end TapeLang
