import TapeLang.Proofs.Reports
import TapeLang.Proofs.Rounds

/-!
# The two engines agree

A visit to the batch loop ends where the stepwise engine is after as many steps, and what the
machine does then is a step of that engine, or makes the tape longer (`Batch.loop_cases`). So the
batch engine stops as the stepwise engine does, or both run on (`Batch.stops_or_runs_on`), and the
runs of two fresh machines end alike (`engines_agree`).
-/

set_option autoImplicit false

namespace TapeLang

/-- The numbers that the run of a machine comes by are small. -/
structure Machine.Small (m : Machine) : Prop where
  program : Batch.SmallProgram m.program
  reached : ∀ index s, m.Reaches index s →
    -(m.program.size : Int) ≤ index ∧ IsSmall s.pointer

namespace Stepwise

open Walk

variable {program : Array Instruction} {options : Options} {c d : Int × State} {n : Nat}

/-- The engine's name does not matter to a step. -/
theorem next?_engineName (name : String) :
    next? program { options with engineName := name } = next? program options := rfl

/-- Two configurations with one step go on alike. -/
theorem after_congr (h : step program options c.1 c.2 = step program options d.1 d.2) :
    after (next? program options) (n + 1) c = after (next? program options) (n + 1) d := by
  rw [after, after, next?, next?, h]

theorem limitReached?_of_next? (h : next? program options c = some d) :
    limitReached? options c.2 = none := by
  have hstep := step_of_next? h
  unfold step at hstep
  split at hstep
  · cases hstep
  · split at hstep
    · cases hstep
    · assumption

/-- A run never passes its step limit. -/
theorem steps_le_of_after {limit : Int} (hmax : options.maxSteps = some limit)
    (hc : c.2.steps ≤ limit) (h : after (next? program options) n c = some d) :
    d.2.steps ≤ limit := by
  refine keeps (p := fun c => c.2.steps ≤ limit) (fun {c d} _ hnext => ?_) hc h
  obtain ⟨i, hexec⟩ := exists_execute_of_next? hnext
  have hlimit := limitReached?_of_next? hnext
  unfold limitReached? at hlimit
  rw [hmax] at hlimit
  simp only at hlimit
  split at hlimit
  · cases hlimit
  · rw [steps_of_execute hexec]
    push_cast
    omega

end Stepwise

namespace Batch

open Walk (after)
open Stepwise (next? stop?)

variable {program : Array Instruction} {options : Options} {c d : Int × State} {n k : Nat}

/-! ## Small runs -/

/-- The run from a configuration on has small numbers. -/
def Safe (program : Array Instruction) (options : Options) (c : Int × State) : Prop :=
  ∀ n d, after (next? program options) n c = some d → Ready program options d

/-- The instruction of a configuration needs a longer tape. -/
def Grows (program : Array Instruction) (c : Int × State) : Prop :=
  ∃ i, fetch? program c.1 = some i ∧ i.Outgrows c.2

theorem Safe.ready (h : Safe program options c) : Ready program options c := h 0 c rfl

theorem Safe.after (h : Safe program options c) (hd : after (next? program options) k c = some d) :
    Safe program options d := fun n e he => h (k + n) e (by rw [Walk.after_trans hd, he])

theorem Safe.congr (h : Safe program options c) (hd : Ready program options d)
    (hstep : Stepwise.step program options d.1 d.2 = Stepwise.step program options c.1 c.2) :
    Safe program options d := by
  intro n e he
  cases n with
  | zero =>
    cases he
    exact hd
  | succ n => exact h (n + 1) e (by rw [← Stepwise.after_congr hstep, he])

theorem Safe.engineName {name : String}
    (h : Safe program { options with engineName := name } c) (name' : String) :
    Safe program { options with engineName := name' } c := by
  intro n d hd
  rw [Stepwise.next?_engineName, ← Stepwise.next?_engineName name] at hd
  obtain ⟨hs, hindex, hpointer, hsteps⟩ := h n d hd
  exact ⟨hs, hindex, hpointer, hsteps⟩

/-! ## The loop -/

section
variable (hprogram : SmallProgram program) (hwrap : options.allowOverflows = true)
include hprogram hwrap

theorem loop_cases {o : State} {l : Loop} (h : Safe program options (l.index, leave o l))
    (fuel : Nat) :
    (∃ l', loop program (budget options o) fuel l = (none, l') ∧
      after (next? program options) fuel (l.index, leave o l) = some (l'.index, leave o l')) ∨
    ∃ k l' reason, loop program (budget options o) fuel l = (some reason, l') ∧
      after (next? program options) k (l.index, leave o l) = some (l'.index, leave o l') ∧
      Meets options o l' (fetch? program l'.index) (.stop reason l')
        (Stepwise.step program options l'.index (leave o l')) := by
  induction fuel generalizing l with
  | zero => exact .inl ⟨l, rfl, rfl⟩
  | succ fuel ih =>
    have hmeets := meets_step hprogram hwrap h.ready
    rw [loop]
    cases hround : step program (budget options o) l with
    | stop reason l' =>
      rw [hround] at hmeets
      obtain rfl : l' = l := by cases hmeets <;> rfl
      exact .inr ⟨0, l', reason, rfl, rfl, hmeets⟩
    | next l' =>
      rw [hround] at hmeets
      have hnext : next? program options (l.index, leave o l) = some (l'.index, leave o l') := by
        generalize hstep : Stepwise.step program options l.index (leave o l) = x at hmeets
        cases hmeets
        exact Stepwise.next?_of_step hstep
      have h' : Safe program options (l'.index, leave o l') :=
        h.after (k := 1) (by rw [Walk.after_succ hnext]; rfl)
      rcases ih h' with ⟨l'', hloop, hafter⟩ | ⟨k, l'', reason, hloop, hafter, hstop⟩
      · exact .inl ⟨l'', hloop, by rw [Walk.after_succ hnext, hafter]⟩
      · exact .inr ⟨k + 1, l'', reason, hloop, by rw [Walk.after_succ hnext, hafter], hstop⟩

/-! ## The machine around the loop -/

omit hprogram hwrap in
/-- Growing is no step, and is not needed twice. -/
theorem grown {i : Instruction} {s : State} {index : Int} (h : Safe program options (index, s))
    (hfetch : fetch? program index = some i) (hi : i.Outgrows s) (hroom : i.refusal? s = none)
    (hlimit : Stepwise.limitReached? options s = none) :
    Safe program options (index, { s with tape := s.tape.extend (s.pointer + i.arg) }) ∧
      Stepwise.step program options index { s with tape := s.tape.extend (s.pointer + i.arg) }
        = Stepwise.step program options index s ∧
      ¬ Grows program (index, { s with tape := s.tape.extend (s.pointer + i.arg) }) := by
  have hready := h.ready
  have hstep : Stepwise.step program options index
      { s with tape := s.tape.extend (s.pointer + i.arg) }
      = Stepwise.step program options index s := by
    rw [step_of_fetch? hfetch hlimit, step_of_fetch? hfetch]
    · exact Stepwise.execute_extend hi hroom
    · exact hlimit
  refine ⟨h.congr ⟨hready.inside.extend _, hready.index, hready.pointer, hready.steps⟩ hstep,
    hstep, ?_⟩
  rintro ⟨i', hfetch', -, hsize⟩
  obtain rfl : i = i' := Option.some_inj.1 (hfetch.symm.trans hfetch')
  have hlt := s.tape.lt_size_extend (s.pointer + i.arg)
  simp only at hsize
  omega

omit hprogram hwrap in
theorem isWord_budget (hlimit : ∀ limit, options.maxSteps = some limit → limit ≤ smallBound)
    (h : Ready program options c) : isWord (budget options c.2) := by
  have hsteps := h.steps
  rw [isWord_iff]
  unfold budget
  cases hmax : options.maxSteps with
  | none => simp [wordBound]
  | some limit =>
    have hle := hlimit limit hmax
    have hle' := hsteps limit hmax
    simp only
    unfold smallBound at hle
    unfold wordBound
    omega

/-- What comes of a visit to the loop. -/
inductive Visit (program : Array Instruction) (options : Options) (fuel : Nat) (c : Int × State) :
    Report → Prop
  | unfinished {d : Int × State} {events : Array Event} :
      after (next? program options) (fuel + 1) c = some d →
      Visit program options fuel c ⟨.unfinished d.1, d.2, events⟩
  | ended {d : Int × State} {ending : Ending} {s : State} {events : Array Event} (k : Nat) :
      after (next? program options) k c = some d → stop? program options d = some (ending, s) →
      Visit program options fuel c ⟨ending, s, events⟩
  | moved {d d' : Int × State} {events : Array Event} (k : Nat) :
      after (next? program options) k c = some d → next? program options d = some d' →
      Visit program options fuel c (runFrom program options fuel d'.1 d'.2 events)
  | grown {d d' : Int × State} {events : Array Event} (k : Nat) :
      after (next? program options) k c = some d → Grows program d → Safe program options d' →
      Stepwise.step program options d'.1 d'.2 = Stepwise.step program options d.1 d.2 →
      ¬ Grows program d' →
      Visit program options fuel c (runFrom program options fuel d'.1 d'.2 events)

theorem visit (hlimit : ∀ limit, options.maxSteps = some limit → limit ≤ smallBound)
    (h : Safe program options c) (fuel : Nat) (events : Array Event) :
    Visit program options fuel c (runFrom program options (fuel + 1) c.1 c.2 events) := by
  obtain ⟨index, s⟩ := c
  have hentry : isWord s.pointer && isWord (budget options s) := by
    rw [Bool.and_eq_true]
    exact ⟨h.ready.pointer.isWord, isWord_budget (c := (index, s)) hlimit h.ready⟩
  simp only [runFrom]
  rw [if_pos hentry]
  rcases loop_cases hprogram hwrap (o := lend s) (l := enter index s) h (fuel + 1) with
    ⟨l, hloop, hafter⟩ | ⟨k, l, reason, hloop, hafter, hmeets⟩
  · replace hloop : loop program (budget options s) (fuel + 1) (enter index s) = (none, l) := hloop
    simp only [hloop]
    exact .unfinished hafter
  · replace hloop : loop program (budget options s) (fuel + 1) (enter index s)
      = (some reason, l) := hloop
    simp only [hloop]
    generalize hstep : Stepwise.step program options l.index (leave (lend s) l) = x at hmeets
    cases hmeets with
    | stop hanswers =>
      split
      · rename_i hact
        have hact' : act options reason l.index (argumentOf (fetch? program l.index))
          (leave (lend s) l) = _ := hact
        rw [hact'] at hanswers
        exact .moved k hafter (Stepwise.next?_of_step (hstep.trans hanswers))
      · rename_i hact
        have hact' : act options reason l.index (argumentOf (fetch? program l.index))
          (leave (lend s) l) = _ := hact
        rw [hact'] at hanswers
        refine .ended k hafter ?_
        rw [stop?, hstep]
        exact hanswers
    | @grow i _ hfetch hi hreached =>
      simp only [hfetch]
      cases hroom : i.refusal? (leave (lend s) l) with
      | none =>
        obtain ⟨hsafe, hsame, hgrows⟩ := grown (h.after hafter) hfetch hi hroom hreached
        simp only [act_grow hi hroom]
        exact .grown k hafter ⟨i, hfetch, hi⟩ hsafe hsame hgrows
      | some error =>
        simp only [act_grow_of_refusal? hi hroom]
        refine .ended k hafter ?_
        rw [stop?, step_of_fetch? hfetch hreached, Stepwise.execute_of_refusal? hroom]
        rfl

/-- **The batch engine stops as the stepwise engine does, or both run on.** Every other visit to the
loop takes a step at least. -/
theorem stops_or_runs_on (hlimit : ∀ limit, options.maxSteps = some limit → limit ≤ smallBound)
    (h : Safe program options c) (fuel : Nat) (events : Array Event) :
    (∃ n d ending s events', after (next? program options) n c = some d ∧
      stop? program options d = some (ending, s) ∧
      runFrom program options fuel c.1 c.2 events = ⟨ending, s, events'⟩) ∨
    ((∃ index, (runFrom program options fuel c.1 c.2 events).ending = .unfinished index) ∧
      (after (next? program options) (fuel / 2) c).isSome ∧
      (¬ Grows program c → (after (next? program options) ((fuel + 1) / 2) c).isSome)) := by
  induction fuel generalizing c events with
  | zero => exact .inr ⟨⟨c.1, rfl⟩, rfl, fun _ => rfl⟩
  | succ fuel ih =>
    have hvisit := visit hprogram hwrap hlimit h fuel events
    generalize runFrom program options (fuel + 1) c.1 c.2 events = rep at hvisit
    cases hvisit with
    | @unfinished d _ hafter =>
      have hsome : (after (next? program options) (fuel + 1) c).isSome := by rw [hafter]; rfl
      exact .inr ⟨⟨d.1, rfl⟩, Walk.isSome_after_of_le hsome (by omega),
        fun _ => Walk.isSome_after_of_le hsome (by omega)⟩
    | @ended d ending s events' k hafter hstop =>
      exact .inl ⟨k, d, ending, s, events', hafter, hstop, rfl⟩
    | @moved d d' events' k hafter hnext =>
      have hd' : after (next? program options) (k + 1) c = some d' := by
        rw [Walk.after_trans hafter, Walk.after_succ hnext]
        rfl
      rcases ih (h.after hd') events' with ⟨n, e, ending, s, events'', he, hstop, hrun⟩ |
        ⟨hending, hsome, -⟩
      · exact .inl ⟨k + 1 + n, e, ending, s, events'', by rw [Walk.after_trans hd', he], hstop,
          hrun⟩
      · rw [← Walk.after_trans hd'] at hsome
        exact .inr ⟨hending, Walk.isSome_after_of_le hsome (by omega),
          fun _ => Walk.isSome_after_of_le hsome (by omega)⟩
    | @grown d d' events' k hafter hgrows hsafe hsame hnot =>
      rcases ih hsafe events' with ⟨n, e, ending, s, events'', he, hstop, hrun⟩ |
        ⟨hending, -, hsome⟩
      · -- the grown configuration stops as the one before does, or goes on to the same ones
        cases n with
        | zero =>
          cases he
          refine .inl ⟨k, d, ending, s, events'', hafter, ?_, hrun⟩
          rwa [stop?, ← hsame]
        | succ n =>
          rw [Stepwise.after_congr hsame, ← Walk.after_trans hafter] at he
          exact .inl ⟨_, e, ending, s, events'', he, hstop, hrun⟩
      · have hsome' : (after (next? program options) (k + (fuel + 1) / 2) c).isSome := by
          rw [Walk.after_trans hafter]
          cases hn : (fuel + 1) / 2 with
          | zero => rfl
          | succ n =>
            rw [← Stepwise.after_congr hsame, ← hn]
            exact hsome hnot
        refine .inr ⟨hending, Walk.isSome_after_of_le hsome' (by omega), fun hfirst => ?_⟩
        have hk : k ≠ 0 := by
          rintro rfl
          cases hafter
          exact hfirst hgrows
        exact Walk.isSome_after_of_le hsome' (by omega)

/-- The batch engine ends where the stepwise engine stops. -/
theorem ends_iff (hlimit : ∀ limit, options.maxSteps = some limit → limit ≤ smallBound)
    (h : Safe program options c) {ending : Ending} {s : State} :
    (∃ fuel events, runFrom program options fuel c.1 c.2 #[] = ⟨ending, s, events⟩ ∧
      ending.IsFinal) ↔
      ∃ n d, after (next? program options) n c = some d ∧
        stop? program options d = some (ending, s) := by
  constructor
  · intro hends
    obtain ⟨fuel, events, hrun, hfinal⟩ := hends
    rcases stops_or_runs_on hprogram hwrap hlimit h fuel #[] with
      ⟨n, d, _, _, _, hafter, hstop, hrun'⟩ | ⟨⟨index, hending⟩, -⟩
    · rw [hrun] at hrun'
      cases hrun'
      exact ⟨n, d, hafter, hstop⟩
    · rw [hrun] at hending
      exact absurd hending (hfinal index)
  · intro hstops
    obtain ⟨n, d, hafter, hstop⟩ := hstops
    -- twice as many visits as steps are enough
    rcases stops_or_runs_on hprogram hwrap hlimit h (2 * (n + 1)) #[] with
      ⟨n', d', _, _, events, hafter', hstop', hrun⟩ | ⟨-, hsome, -⟩
    · cases Stepwise.stop_unique hafter hstop hafter' hstop'
      exact ⟨_, events, hrun, Stepwise.isFinal_of_stop? hstop⟩
    · rw [show 2 * (n + 1) / 2 = n + 1 by omega, Stepwise.after_eq_none_of_stop? hafter hstop]
        at hsome
      cases hsome

end

end Batch

/-! ## Fresh machines -/

namespace Machine

variable {program : Program} {options : Options} {input : Input} {output : Output}
  {memory : Memory} {m : Machine}

theorem objection?_of_new (h : Machine.new program options input output memory = .ok m) :
    options.objection? = none := by
  unfold Machine.new at h
  split at h
  · cases h
  · assumption

theorem state_of_new (h : Machine.new program options input output memory = .ok m) :
    ∃ hpos, m.state
      = { tape := Tape.blank options.chunkSize.toNat hpos, input, output, memory } := by
  unfold Machine.new at h
  split at h
  · cases h
  · split at h
    · split at h
      · cases h
      · cases h
        exact ⟨_, rfl⟩
    · cases h

end Machine

namespace Options

variable {options : Options}

theorem allowOverflows_of_batch (h : options.objection? = none) (hbatch : options.engine = .batch) :
    options.allowOverflows = true := by
  unfold objection? at h
  split at h
  · cases h
  · split at h
    · cases h
    · rename_i hchecked
      by_contra hne
      exact hchecked ⟨hbatch, hne⟩

theorem limit_nonneg {limit : Int} (h : options.objection? = none)
    (hmax : options.maxSteps = some limit) : 0 ≤ limit := by
  unfold objection? at h
  rw [hmax] at h
  split at h
  · cases h
  · split at h
    · cases h
    · simp only at h
      split at h
      · cases h
      · omega

end Options

/-- A program is encoded if its arguments are words, and is kept as it is. -/
theorem Batch.encode?_eq_some_iff {program code : Array Instruction} :
    encode? program.toList = some code ↔ (∀ i ∈ program, isWord i.arg) ∧ code = program := by
  have hall : (program.toList.all fun i => isWord i.arg) ↔ ∀ i ∈ program, isWord i.arg := by
    simp only [List.all_eq_true, Array.mem_toList_iff]
  unfold encode?
  rw [Array.toArray_toList]
  by_cases hwords : ∀ i ∈ program, isWord i.arg
  · rw [if_pos (hall.2 hwords), Option.some.injEq]
    exact ⟨fun h => ⟨hwords, h.symm⟩, fun h => h.2.symm⟩
  · rw [if_neg (mt hall.1 hwords)]
    simp [hwords]

theorem Machine.runFor_of_words {m : Machine} (hm : m.options.engine = .batch)
    (hwords : ∀ i ∈ m.program, isWord i.arg) (fuel : Nat) :
    m.runFor fuel = Batch.runFrom m.program m.options fuel 0 m.state #[] := by
  rw [runFor, hm]
  simp only [Batch.encode?_eq_some_iff.2 ⟨hwords, rfl⟩]

theorem Machine.runFor_of_batch {m : Machine} (hm : m.options.engine = .batch)
    (hprogram : Batch.SmallProgram m.program) (fuel : Nat) :
    m.runFor fuel = Batch.runFrom m.program m.options fuel 0 m.state #[] :=
  runFor_of_words hm (fun i hi => (hprogram.args i hi).isWord) fuel

theorem Machine.Small.safe {m : Machine} (h : m.Small) (hm : m.options.engine = .stepwise)
    (hs : m.state.Inside)
    (hsteps : ∀ limit, m.options.maxSteps = some limit → m.state.steps ≤ limit) :
    Batch.Safe m.program m.options (0, m.state) := by
  intro n d hd
  obtain ⟨hindex, hpointer⟩ := h.reached d.1 d.2 ((Machine.reaches_iff hm).2 ⟨n, hd⟩)
  exact ⟨Stepwise.inside_of_after hs hd, hindex, hpointer,
    fun limit hmax => Stepwise.steps_le_of_after hmax (hsteps limit hmax) hd⟩

/-- Where the run stops, it is enough to look at the steps before. -/
theorem Machine.small_of_stop? {m : Machine} {n : Nat} {d : Int × State} {stop : Ending × State}
    (hm : m.options.engine = .stepwise) (hprogram : Batch.SmallProgram m.program)
    (hd : Walk.after (Stepwise.next? m.program m.options) n (0, m.state) = some d)
    (hstop : Stepwise.stop? m.program m.options d = some stop)
    (hreached : ∀ k ≤ n, ∀ e,
      Walk.after (Stepwise.next? m.program m.options) k (0, m.state) = some e →
      -(m.program.size : Int) ≤ e.1 ∧ IsSmall e.2.pointer) : m.Small := by
  refine ⟨hprogram, fun index s h => ?_⟩
  obtain ⟨k, hk⟩ := (Machine.reaches_iff hm).1 h
  exact hreached k (Stepwise.le_of_stop? hd hstop hk) _ hk

/-- **The two engines agree** on every program whose run comes by small numbers only: whatever the
streams, the size of chunks and the memory, either run ends if and only if the other does, for the
same reason and in the same state. -/
theorem engines_agree {program : Program} {options : Options} {input : Input} {output : Output}
    {memory : Memory} {m m' : Machine}
    (hm : Machine.new program { options with engineName := Engine.stepwise.name } input output
      memory = .ok m)
    (hm' : Machine.new program { options with engineName := Engine.batch.name } input output
      memory = .ok m')
    (hlimit : ∀ limit, options.maxSteps = some limit → limit ≤ smallBound) (hsmall : m.Small)
    (ending : Ending) (s : State) :
    (∃ events, m.Ends ⟨ending, s, events⟩) ↔ ∃ events, m'.Ends ⟨ending, s, events⟩ := by
  obtain ⟨hprogram, hoptions, hs, hsteps, -⟩ := Machine.new_eq_ok hm
  obtain ⟨hprogram', hoptions', -⟩ := Machine.new_eq_ok hm'
  have hsame : m'.program = m.program := hprogram'.trans hprogram.symm
  have hstate : m'.state = m.state := by
    obtain ⟨_, hstate⟩ := Machine.state_of_new hm
    obtain ⟨_, hstate'⟩ := Machine.state_of_new hm'
    rw [hstate, hstate']
  have hobjection := Machine.objection?_of_new hm'
  have hstepwise : m.options.engine = .stepwise := by rw [hoptions]; rfl
  have hbatch : m'.options.engine = .batch := by rw [hoptions']; rfl
  have hwrap : m'.options.allowOverflows = true := by
    rw [hoptions']
    exact Options.allowOverflows_of_batch hobjection rfl
  have hlimit' (limit : Int) (hmax : m'.options.maxSteps = some limit) : limit ≤ smallBound := by
    rw [hoptions'] at hmax
    exact hlimit limit hmax
  have hstart (limit : Int) (hmax : m.options.maxSteps = some limit) : m.state.steps ≤ limit := by
    rw [hoptions] at hmax
    rw [hsteps]
    exact Options.limit_nonneg hobjection hmax
  have hsafe : Batch.Safe m.program m'.options (0, m.state) := by
    have h := hsmall.safe hstepwise hs hstart
    rw [hoptions] at h
    rw [hoptions']
    exact h.engineName _
  calc (∃ events, m.Ends ⟨ending, s, events⟩)
    _ ↔ ∃ n c, Walk.after (Stepwise.next? m.program m.options) n (0, m.state) = some c ∧
          Stepwise.stop? m.program m.options c = some (ending, s) := Machine.ends_iff hstepwise
    _ ↔ ∃ n c, Walk.after (Stepwise.next? m.program m'.options) n (0, m.state) = some c ∧
          Stepwise.stop? m.program m'.options c = some (ending, s) := by
      simp only [hoptions, hoptions', Stepwise.next?_engineName]
      exact Iff.rfl
    _ ↔ ∃ fuel events, Batch.runFrom m.program m'.options fuel 0 m.state #[]
          = ⟨ending, s, events⟩ ∧ ending.IsFinal :=
      (Batch.ends_iff hsmall.program hwrap hlimit' hsafe).symm
    _ ↔ ∃ events, m'.Ends ⟨ending, s, events⟩ := by
      rw [← hsame, ← hstate, exists_comm]
      simp only [Machine.Ends, Machine.runFor_of_batch hbatch (hsame ▸ hsmall.program)]

/-- A move for which the tape has to grow, and a limit that is just not reached. -/
theorem engines_agree_growth :
    ∃ m m' s, Machine.new [⟨.shift, 5⟩, ⟨.modify, 3⟩, ⟨.print, 2⟩]
        { maxSteps := some 3, chunkSize := 2, engineName := Engine.stepwise.name } {} {} = .ok m ∧
      Machine.new [⟨.shift, 5⟩, ⟨.modify, 3⟩, ⟨.print, 2⟩]
        { maxSteps := some 3, chunkSize := 2, engineName := Engine.batch.name } {} {} = .ok m' ∧
      m.Small ∧ s.output.written = #[3, 3] ∧ (∃ events, m.Ends ⟨.completed, s, events⟩) ∧
      ∃ events, m'.Ends ⟨.completed, s, events⟩ := by
  have hm : ∃ m, Machine.new [⟨.shift, 5⟩, ⟨.modify, 3⟩, ⟨.print, 2⟩]
    { maxSteps := some 3, chunkSize := 2, engineName := Engine.stepwise.name } {} {} = .ok m :=
    ⟨_, rfl⟩
  have hm' : ∃ m', Machine.new [⟨.shift, 5⟩, ⟨.modify, 3⟩, ⟨.print, 2⟩]
    { maxSteps := some 3, chunkSize := 2, engineName := Engine.batch.name } {} {} = .ok m' :=
    ⟨_, rfl⟩
  obtain ⟨m, hm⟩ := hm
  obtain ⟨m', hm'⟩ := hm'
  obtain ⟨hprogram, hoptions, -⟩ := Machine.new_eq_ok hm
  obtain ⟨_, hstate⟩ := Machine.state_of_new hm
  replace hstate : m.state = { tape := Tape.blank 2 (by decide), input := {}, output := {} } :=
    hstate
  have hstepwise : m.options.engine = .stepwise := by rw [hoptions]; rfl
  have hplaces (n : Nat) (hn : n ≤ 3) :
      (Walk.after (Stepwise.next? m.program m.options) n (0, m.state)).map
      (fun d => (d.1, d.2.pointer)) = some ((n : Int), if n = 0 then 0 else 5) := by
    rw [hprogram, hoptions, hstate]
    match n with
    | 0 => decide
    | 1 => decide
    | 2 => decide
    | 3 => decide
  have hend : ∃ d s, Walk.after (Stepwise.next? m.program m.options) 3 (0, m.state) = some d ∧
      Stepwise.stop? m.program m.options d = some (.completed, s) ∧
      s.output.written = #[3, 3] := by
    rw [hprogram, hoptions, hstate]
    exact ⟨_, _, rfl, rfl, rfl⟩
  obtain ⟨e, s, he, hstop, hwritten⟩ := hend
  have hsmall : m.Small := by
    refine Machine.small_of_stop? hstepwise ⟨?_, ?_⟩ he hstop fun n hn d hd => ?_
    · rw [hprogram]
      decide
    · rw [hprogram]
      simp [IsSmall, smallBound]
    · have hplace := hplaces n hn
      rw [hd] at hplace
      simp only [Option.map_some, Option.some.injEq, Prod.mk.injEq] at hplace
      obtain ⟨hindex, hpointer⟩ := hplace
      rw [hindex, hpointer]
      unfold IsSmall smallBound
      constructor
      · omega
      · split <;> omega
  have hends : ∃ events, m.Ends ⟨.completed, s, events⟩ :=
    (Machine.ends_iff hstepwise).2 ⟨3, e, he, hstop⟩
  have hlimit : ∀ limit, some 3 = some limit → limit ≤ smallBound := by
    rintro limit ⟨⟩
    decide
  exact ⟨m, m', s, hm, hm', hsmall, hwritten, hends,
    (@engines_agree _ { maxSteps := some 3, chunkSize := 2 } _ _ _ _ _ hm hm' hlimit hsmall
      .completed s).1 hends⟩

end TapeLang
