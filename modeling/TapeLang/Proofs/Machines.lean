import TapeLang.Proofs.Visits

/-!
# Machines, one instruction at a time

`Machine.take` is what a machine makes of an instruction on its engine, and `Machine.after` where
its run is when so many instructions are completed. The run of a machine ends where this walk does
(`Machine.ends_iff_walk`), on both engines. What holds of a fresh machine and is kept from one
instruction to the next is `Machine.Fits`.
-/

set_option autoImplicit false

namespace TapeLang

open Batch (Resumption)

namespace Machine

section
variable (m : Machine)

/-- What the machine makes of the instruction at an index. -/
def take (c : Int × State) : Resumption :=
  match m.options.engine with
  | .stepwise => Stepwise.take m.program m.options c
  | .batch =>
    match Batch.encode? m.program.toList with
    | none => .ended (.failed .numberTooLarge) c.2
    | some code => Batch.turn code m.options c

/-- The index of the next instruction and the state after a number of completed instructions, if the
run has not ended before. -/
def after (n : Nat) : Option (Int × State) := Walk.after (Walk.next? m.take) n (0, m.state)

/-- The run fails in a state, and this is raised. -/
def Raises (raised : Raised) (s : State) : Prop :=
  ∃ error events, m.Ends ⟨.failed error, s, events⟩ ∧ error.raised = raised

/-- What a machine keeps from one instruction to the next. -/
structure Fits (c : Int × State) : Prop where
  inside : c.2.Inside
  held : m.options.engine = .batch → Batch.Held m.options c

end

variable {m : Machine} {c : Int × State} {index : Int} {s : State} {ending : Ending}

/-! ## The two engines -/

theorem take_of_stepwise (hengine : m.options.engine = .stepwise) :
    m.take = Stepwise.take m.program m.options := by
  funext c
  rw [take, hengine]

theorem take_of_words (hengine : m.options.engine = .batch)
    (hwords : ∀ i ∈ m.program, isWord i.arg) : m.take = Batch.turn m.program m.options := by
  funext c
  rw [take, hengine]
  simp only [Batch.encode?_eq_some_iff.2 ⟨hwords, rfl⟩]

variable (m) in
/-- How a machine works: on one of the engines, or not at all as the batch engine refuses a program
with an argument that is no word. -/
inductive Mode : Prop
  | stepwise : m.options.engine = .stepwise → m.take = Stepwise.take m.program m.options → Mode
  | batch : m.options.engine = .batch → (∀ i ∈ m.program, isWord i.arg) →
      m.take = Batch.turn m.program m.options → Mode
  | refused : m.options.engine = .batch → (¬ ∀ i ∈ m.program, isWord i.arg) →
      (∀ c, m.take c = .ended (.failed .numberTooLarge) c.2) →
      (∀ fuel, m.runFor fuel = ⟨.failed .numberTooLarge, m.state, #[]⟩) → Mode

variable (m) in
theorem mode : m.Mode := by
  cases hengine : m.options.engine with
  | stepwise => exact .stepwise hengine (take_of_stepwise hengine)
  | batch =>
    by_cases hwords : ∀ i ∈ m.program, isWord i.arg
    · exact .batch hengine hwords (take_of_words hengine hwords)
    · have hcode : Batch.encode? m.program.toList = none := by
        rw [Option.eq_none_iff_forall_ne_some]
        exact fun code h => hwords (Batch.encode?_eq_some_iff.1 h).1
      exact .refused hengine hwords (fun c => by simp only [take, hengine, hcode])
        fun fuel => by simp only [runFor, hengine, hcode]

/-- **A run ends where the walk of its instructions does**, on either engine. -/
theorem ends_iff_walk (h : m.Fits (0, m.state)) :
    (∃ events, m.Ends ⟨ending, s, events⟩) ↔ ∃ n, Walk.Ends m.take n (0, m.state) ending s := by
  cases m.mode with
  | stepwise hengine htake =>
    rw [htake]
    simp only [Stepwise.walk_ends_iff]
    exact ends_iff hengine
  | batch hengine hwords htake =>
    rw [htake, ← Batch.ends_iff_turns hwords (h.held hengine), exists_comm]
    simp only [Ends, runFor_of_words hengine hwords]
  | refused hengine hwords htake hrun =>
    constructor
    · intro hends
      obtain ⟨events, fuel, hreport, -⟩ := hends
      rw [hrun] at hreport
      cases hreport
      exact ⟨0, _, rfl, htake _⟩
    · intro hends
      obtain ⟨n, d, hd, hend⟩ := hends
      cases n with
      | zero =>
        cases hd
        rw [htake] at hend
        cases hend
        exact ⟨#[], 0, hrun 0, Ending.isFinal_failed _⟩
      | succ n =>
        rw [Walk.after_of_ended (htake _)] at hd
        cases hd

theorem counts_take : Walk.Counts m.take m.Fits := by
  intro c index s h hmove
  cases m.mode with
  | stepwise hengine htake =>
    rw [htake, Stepwise.take_eq_resume_iff] at hmove
    obtain ⟨i, hexec⟩ := Stepwise.exists_execute_of_next? (Stepwise.next?_of_step hmove)
    refine ⟨⟨Stepwise.inside_of_execute h.inside hexec, fun hbatch => ?_⟩,
      Stepwise.steps_of_execute hexec⟩
    rw [hengine] at hbatch
    cases hbatch
  | batch hengine hwords htake =>
    rw [htake] at hmove
    obtain ⟨hheld, hsteps⟩ := Batch.held_turn hwords (h.held hengine) hmove
    exact ⟨⟨hheld.inside, fun _ => hheld⟩, hsteps⟩
  | refused _ _ htake =>
    rw [htake] at hmove
    cases hmove

theorem fits_of_stepwise (hengine : m.options.engine = .stepwise) (hs : m.state.Inside) :
    m.Fits (0, m.state) where
  inside := hs
  held hbatch := by
    rw [hengine] at hbatch
    cases hbatch

/-- What a machine keeps, it keeps all the way. -/
theorem Fits.after {n : Nat} (h : m.Fits (0, m.state)) (hafter : m.after n = some c) : m.Fits c :=
  Walk.keeps_of_moves (fun hc hmove => (counts_take hc hmove).1) h hafter

/-! ## Fresh machines -/

theorem exists_new_of_options {program : Program} {options options' : Options} {input : Input}
    {output : Output} {memory : Memory}
    (h : Machine.new program options input output memory = .ok m)
    (hobjection : options'.objection? = none) (hchunk : options'.chunkSize = options.chunkSize) :
    ∃ m', Machine.new program options' input output memory = .ok m' := by
  unfold Machine.new at h ⊢
  rw [hobjection]
  simp only [hchunk]
  split at h
  · cases h
  · split at h
    · rename_i hpos
      rw [dif_pos hpos]
      split at h
      · cases h
      · exact ⟨_, rfl⟩
    · cases h

section
variable {program : Program} {options : Options} {input : Input} {output : Output}
  {memory : Memory} {n : Nat} (hm : Machine.new program options input output memory = .ok m)
include hm

/-- Of the options, only the size of chunks decides about the first state. -/
theorem state_eq_of_new {m' : Machine} {program' : Program} {options' : Options}
    (hm' : Machine.new program' options' input output memory = .ok m')
    (hchunk : options'.chunkSize = options.chunkSize) : m'.state = m.state := by
  obtain ⟨_, hstate⟩ := state_of_new hm
  obtain ⟨_, hstate'⟩ := state_of_new hm'
  rw [hstate, hstate']
  simp only [hchunk]

theorem take_of_new (hengine : options.engine = .stepwise) :
    m.take = Stepwise.take program.toArray options := by
  obtain ⟨hprogram, rfl, -⟩ := new_eq_ok hm
  rw [take_of_stepwise hengine, hprogram]

theorem take_of_new_words (hengine : options.engine = .batch)
    (hwords : ∀ i ∈ program, isWord i.arg) : m.take = Batch.turn program.toArray options := by
  obtain ⟨hprogram, rfl, -⟩ := new_eq_ok hm
  have hcode : ∀ i ∈ m.program, isWord i.arg := by
    intro i hi
    rw [hprogram] at hi
    exact hwords i (List.mem_toArray.1 hi)
  rw [take_of_words hengine hcode, hprogram]

theorem held_of_new : Batch.Held m.options (0, m.state) := by
  obtain ⟨-, rfl, hs, hsteps, -⟩ := new_eq_ok hm
  obtain ⟨_, hstate⟩ := state_of_new hm
  refine ⟨hs, ?_, fun limit hmax => ?_⟩
  · show isWord m.state.pointer
    rw [hstate]
    show isWord 0
    decide
  · show (m.state.steps : Int) ≤ limit
    rw [hsteps]
    exact Options.limit_nonneg (objection?_of_new hm) hmax

theorem fits_of_new : m.Fits (0, m.state) :=
  have hheld := held_of_new hm
  ⟨hheld.inside, fun _ => hheld⟩

theorem fits_of_after (h : m.after n = some c) : m.Fits c :=
  (fits_of_new hm).after h

/-- A fresh machine has completed as many instructions as its counter says. -/
theorem steps_of_after (h : m.after n = some c) : c.2.steps = n := by
  have hsteps := Walk.steps_of_after counts_take (fits_of_new hm) h
  rw [(new_eq_ok hm).2.2.2.1, Nat.zero_add] at hsteps
  exact hsteps

theorem ends_iff_after :
    (∃ events, m.Ends ⟨ending, s, events⟩) ↔
      ∃ n d, m.after n = some d ∧ m.take d = .ended ending s :=
  ends_iff_walk (fits_of_new hm)

/-- A run ends once. -/
theorem ends_unique {ending' : Ending} {s' : State} {events events' : Array Event}
    (h : m.Ends ⟨ending, s, events⟩) (h' : m.Ends ⟨ending', s', events'⟩) :
    ending = ending' ∧ s = s' := by
  obtain ⟨n, hend⟩ := (ends_iff_walk (fits_of_new hm)).1 ⟨events, h⟩
  obtain ⟨n', hend'⟩ := (ends_iff_walk (fits_of_new hm)).1 ⟨events', h'⟩
  exact (hend.unique hend').2

end

end Machine

end TapeLang
