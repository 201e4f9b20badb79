import TapeLang.Proofs.Reading

/-!
# Histories of a machine

A machine keeps its tape, pointer and counter from one run to the next, and its options may be
replaced in between (`Machine.Arises`). So the counter can be past a limit when a run starts. The
stepwise engine minds the limit all the same. The batch engine gets what is left of it as a budget;
past the limit that is negative, and a negative budget is no limit at all (`minds_limit_iff`).
-/

set_option autoImplicit false

namespace TapeLang

open Batch (Resumption)

/-- The machines that come of new ones by runs, resets and replaced options. -/
inductive Machine.Arises : Machine → Prop
  | new {program : Program} {options : Options} {input : Input} {output : Output} {m : Machine}
      {memory : Memory} : Machine.new program options input output memory = .ok m → Arises m
  | run {m : Machine} {rep : Report} : Arises m → m.Ends rep → Arises { m with state := rep.state }
  | reset {m : Machine} : Arises m → Arises m.reset
  | replace {m : Machine} {options : Options} : Arises m →
      (∀ limit, options.maxSteps = some limit → 0 ≤ limit) → Arises { m with options }

/-- The engine takes the program and the state. The batch engine takes words only. -/
def Machine.Enters (m : Machine) : Prop :=
  m.options.engine = .batch → (∀ i ∈ m.program, isWord i.arg) ∧
    isWord m.state.pointer ∧ isWord (Batch.budget m.options m.state)

/-- Where a limit has been reached, no instruction is executed any more. -/
structure Machine.Minds (m : Machine) (limit : Int) : Prop where
  rests : ∀ {n index s}, m.after n = some (index, s) → limit ≤ s.steps →
    ∃ ending, m.take (index, s) = .ended ending s ∧
      (m.Enters → ending = if m.program.size ≤ index then .completed
        else .failed (.stepLimit limit ⟨s.pointer, index⟩))
  counter : ∀ {rep}, m.Ends rep → rep.state.steps ≤ max limit m.state.steps
  stops : limit ≤ m.state.steps → m.program ≠ #[] →
    ∃ ending events, m.Ends ⟨ending, m.state, events⟩ ∧
      (m.Enters → ending = .failed (.stepLimit limit ⟨m.state.pointer, 0⟩))

/-! ## The pointer stays on a cell -/

theorem Failure.Clean.inside {checked : Bool} {i? : Option Instruction} {index : Int} {s : State}
    {f : Failure} (h : f.Clean checked i? index s) (hs : s.Inside) : f.state.Inside := by
  have hsize : s.tape.size ≤ f.state.tape.size := by
    rcases h.tape with htape | ⟨i, -, hgrown⟩
    · rw [htape]
    · obtain ⟨-, -, -, -, n, htape⟩ := hgrown
      rw [htape]
      simp [Tape.size]
  obtain ⟨h₀, hlt⟩ := hs
  unfold State.Inside
  rw [h.pointer]
  omega

namespace Stepwise

variable {program : Array Instruction} {options : Options} {c : Int × State} {checked : Bool}
  {i : Instruction} {index : Int} {s : State}

theorem inside_execute (hs : s.Inside) : (execute checked i index s).resumption.state.Inside := by
  cases hexec : execute checked i index s with
  | next index' t => exact inside_of_execute hs hexec
  | done t => exact absurd hexec (execute_ne_done hs)
  | failed error t =>
    have hfails := fails_of_execute hs (f := ⟨error, t⟩) hexec
    exact (Failure.Clean.of_fails hs hfails).inside hs

theorem inside_of_take (hc : c.2.Inside) {x : Resumption} (h : take program options c = x) :
    x.state.Inside := by
  have hmoves := moves_take program options hc
  rw [h] at hmoves
  cases hmoves with
  | completed => exact hc
  | limit => exact hc
  | missing => exact hc
  | fails _ _ hfails => exact (Failure.Clean.of_fails hc hfails).inside hc
  | next _ _ hexec => exact inside_of_execute hc hexec

end Stepwise

namespace Batch

/-- The pointer of the loop is a word and on a cell. -/
structure Loop.Inside (l : Loop) : Prop where
  nonneg : 0 ≤ l.pointer
  lt_size : l.pointer < l.memory.size
  isWord : isWord l.pointer

/-- The loop has stopped, but not for a limit. -/
def Stop.Unlimited : Stop → Prop
  | limit => False
  | failed error => error.place? = none
  | _ => True

variable {code : Array Instruction} {options : Options} {b : Int} {l : Loop} {s : State}
  {reason : Stop} {index arg : Int}

theorem Loop.Inside.leave (h : l.Inside) (o : State) : (leave o l).Inside := ⟨h.nonneg, h.lt_size⟩

/-- A round completes an instruction or changes nothing, and a negative budget is no limit. -/
theorem round_cases (h : l.Inside) :
    (∃ l', step code b l = .next l' ∧ l'.Inside ∧ l'.steps = l.steps + 1) ∨
      ∃ reason, step code b l = .stop reason l ∧ (b < 0 → reason.Unlimited) := by
  unfold step
  split
  · exact .inr ⟨_, rfl, fun _ => trivial⟩
  · split
    · exact .inr ⟨_, rfl, fun hb => by omega⟩
    · split
      · rename_i i _
        have htakes := takes_execute h.nonneg h.lt_size h.isWord i
        generalize execute i l = x at htakes
        cases htakes with
        | next hsteps hsize h₀ hlt hword =>
          exact .inl ⟨_, rfl, ⟨h₀, by rw [hsize]; exact hlt, hword⟩, hsteps⟩
        | _ => exact .inr ⟨_, rfl, fun _ => trivial⟩
      · exact .inr ⟨_, rfl, fun _ => RunError.place?_missing _ _⟩

theorem visit_cases (h : l.Inside) (fuel : Nat) :
    ∃ l', l'.Inside ∧ l.steps ≤ l'.steps ∧ (loop code b fuel l = (none, l') ∨
      ∃ reason, loop code b fuel l = (some reason, l') ∧ (b < 0 → reason.Unlimited)) := by
  induction fuel generalizing l with
  | zero => exact ⟨l, h, Nat.le_refl _, .inl rfl⟩
  | succ fuel ih =>
    rw [loop]
    rcases @round_cases code b l h with ⟨l', hround, hl', hsteps⟩ | ⟨reason, hround, hreason⟩
    · rw [hround]
      obtain ⟨l'', hl'', hle, hloop⟩ := ih hl'
      exact ⟨l'', hl'', by omega, hloop⟩
    · rw [hround]
      exact ⟨l, h, Nat.le_refl _, .inr ⟨reason, rfl, hreason⟩⟩

theorem inside_of_act (hs : s.Inside) {x : Resumption}
    (h : act options reason index arg s = x) : x.state.Inside := by
  subst h
  have heffect (i : Instruction) :
      (Stepwise.execute false i index s).resumption.state.Inside := Stepwise.inside_execute hs
  cases reason with
  | print =>
    rw [act, ← Stepwise.resumption_goOn]
    exact heffect ⟨.print, arg⟩
  | scan =>
    rw [act, ← Stepwise.resumption_goOn]
    exact heffect ⟨.scan, arg⟩
  | grow =>
    simp only [act]
    rcases s.reach_cases (s.pointer + arg) with hreach | ⟨error, hreach⟩
    · rw [hreach]
      exact hs.extend _
    · rw [hreach]
      exact hs
  | _ => exact hs

theorem le_steps_of_act {index' : Int} {t : State}
    (h : act options reason index arg s = .resume index' t) : s.steps ≤ t.steps := by
  have hresume {effect : Except Failure State} (heffect : ∀ u, effect = .ok u → u.steps = s.steps)
      (h : resumeAfter index effect = .resume index' t) : s.steps ≤ t.steps := by
    cases effect with
    | error failure => cases h
    | ok u =>
      cases h
      have hsteps := heffect u rfl
      simp only [State.tick]
      omega
  cases reason with
  | print => exact hresume (fun _ hu => (State.keeps_print hu).steps) h
  | scan => exact hresume (fun _ hu => (State.keeps_scan hu).steps) h
  | grow =>
    simp only [act] at h
    rcases s.reach_cases (s.pointer + arg) with hreach | ⟨error, hreach⟩
    · rw [hreach] at h
      cases h
      exact Nat.le_refl _
    · rw [hreach] at h
      cases h
  | _ => cases h

theorem act_ne_stepLimit (hs : s.Inside) (hreason : reason.Unlimited) {limit : Int} {place : Place}
    {t : State} :
    act options reason index arg s ≠ .ended (.failed (.stepLimit limit place)) t := by
  have hresume {effect : Except Failure State}
      (heffect : ∀ f, effect = .error f → f.error ≠ .stepLimit limit place) :
      resumeAfter index effect ≠ .ended (.failed (.stepLimit limit place)) t := by
    intro h
    cases effect with
    | ok u => cases h
    | error f =>
      simp only [resumeAfter, Resumption.ended.injEq, Ending.failed.injEq] at h
      exact heffect f rfl h.1
  cases reason with
  | limit => exact hreason.elim
  | failed error =>
    intro h
    simp only [act, Resumption.ended.injEq, Ending.failed.injEq] at h
    obtain ⟨rfl, -⟩ := h
    cases hreason
  | print =>
    refine hresume fun f hf => ?_
    obtain ⟨-, rfl⟩ := (State.print_eq_error_iff hs).1 hf
    simp
  | scan =>
    refine hresume fun f hf => ?_
    rcases (State.scan_eq_error_iff hs).1 hf with ⟨-, rfl⟩ | ⟨input, -, rfl⟩ <;> simp
  | grow =>
    simp only [act]
    rcases s.reach_cases (s.pointer + arg) with hreach | ⟨error, hreach⟩ <;> simp [hreach]
  | _ => simp [act]

/-- Behind the last instruction there is nothing to do. -/
theorem runFrom_of_size_le (hentry : isWord s.pointer && isWord (budget options s))
    (hsize : code.size ≤ index) (fuel : Nat) (events : Array Event) :
    runFrom code options (fuel + 1) index s events = ⟨.completed, s, events⟩ := by
  have hround : step code (budget options s) (enter index s) = .stop .finished (enter index s) :=
    if_pos hsize
  have hloop : loop code (budget options s) (fuel + 1) (enter index s)
      = (some .finished, enter index s) := by
    rw [loop, hround]
  simp only [runFrom, if_pos hentry, hloop]
  rfl

/-- **A run keeps the pointer on a cell**, and a limit that has been passed does not stop it. -/
theorem runFrom_keeps (hs : s.Inside) (fuel : Nat) (events : Array Event) :
    (runFrom code options fuel index s events).state.Inside ∧
      ∀ limit, options.maxSteps = some limit → limit < s.steps → ∀ limit' place,
        (runFrom code options fuel index s events).ending ≠ .failed (.stepLimit limit' place) := by
  induction fuel generalizing index s events with
  | zero => exact ⟨hs, fun _ _ _ _ _ => by simp [runFrom]⟩
  | succ fuel ih =>
    simp only [runFrom]
    split
    swap
    · exact ⟨hs, fun _ _ _ _ _ => by simp⟩
    rename_i hentry
    rw [Bool.and_eq_true] at hentry
    have hl : (enter index s).Inside := ⟨hs.1, hs.2, hentry.1⟩
    have hbudget {limit : Int} (hmax : options.maxSteps = some limit) (hlt : limit < s.steps) :
        budget options s < 0 := by
      simp only [budget, hmax]
      omega
    obtain ⟨l, hl, -, hloop | ⟨reason, hloop, hreason⟩⟩ :=
      @visit_cases code (budget options s) (enter index s) hl (fuel + 1)
    · simp only [hloop]
      exact ⟨hl.leave _, fun _ _ _ _ _ => by simp⟩
    · simp only [hloop]
      have hleft : (leave (lend s) l).Inside := hl.leave _
      have hsteps : s.steps ≤ (leave (lend s) l).steps := Nat.le_add_right _ _
      split
      · rename_i index' t hact
        have ht : t.Inside := inside_of_act hleft hact
        have hle := le_steps_of_act hact
        obtain ⟨hkeeps, hspares⟩ := @ih t index' ht _
        exact ⟨hkeeps, fun limit hmax hlt => hspares limit hmax (by omega)⟩
      · rename_i ending t hact
        refine ⟨inside_of_act hleft hact, fun limit hmax hlt limit' place hending => ?_⟩
        replace hending : ending = .failed (.stepLimit limit' place) := hending
        rw [hending] at hact
        exact act_ne_stepLimit hleft (hreason (hbudget hmax hlt)) hact

end Batch

/-! ## Walks -/

/-- A walk whose moves end where a limit is reached stays below it, or does not move at all. -/
theorem Walk.steps_le_of_after {take : Int × State → Resumption} {p : Int × State → Prop}
    {c d : Int × State} {n : Nat} {limit : Int} (hcounts : Counts take p)
    (hlimit : ∀ {c}, p c → limit ≤ c.2.steps → ∃ ending s, take c = .ended ending s)
    (hc : p c) (h : after (next? take) n c = some d) : (d.2.steps : Int) ≤ max limit c.2.steps := by
  have hmove {e : Int × State} {index : Int} {s : State}
      (he : p e ∧ (e.2.steps : Int) ≤ max limit c.2.steps) (hmove : take e = .resume index s) :
      p (index, s) ∧ (s.steps : Int) ≤ max limit c.2.steps := by
    obtain ⟨hs, hsteps⟩ := hcounts he.1 hmove
    have hlt : (e.2.steps : Int) < limit := by
      by_contra hle
      obtain ⟨ending, t, hend⟩ := hlimit he.1 (Int.not_lt.mp hle)
      rw [hmove] at hend
      cases hend
    exact ⟨hs, by omega⟩
  exact (keeps_of_moves (p := fun e => p e ∧ (e.2.steps : Int) ≤ max limit c.2.steps) hmove
    ⟨hc, Int.le_max_right _ _⟩ h).2

/-! ## Machines -/

namespace Machine

variable {m : Machine} {c : Int × State} {limit : Int}

/-- No run takes the pointer off the tape. -/
theorem inside_of_ends {rep : Report} (hs : m.state.Inside) (h : m.Ends rep) :
    rep.state.Inside := by
  cases m.mode with
  | stepwise hengine =>
    obtain ⟨n, hstop⟩ := (ends_iff hengine).1 ⟨rep.events, h⟩
    obtain ⟨d, hd, hend⟩ := Stepwise.walk_ends_iff.2 hstop
    have hd' : d.2.Inside :=
      Walk.keeps_of_moves (p := fun c => c.2.Inside)
        (fun hc hmove => Stepwise.inside_of_take hc hmove) hs hd
    exact Stepwise.inside_of_take hd' hend
  | batch hengine hwords =>
    obtain ⟨fuel, hrun, -⟩ := h
    rw [← hrun, runFor_of_words hengine hwords]
    exact (Batch.runFrom_keeps hs fuel #[]).1
  | refused _ _ _ hrefused =>
    obtain ⟨fuel, hrun, -⟩ := h
    rw [← hrun, hrefused]
    exact hs

theorem Arises.inside (h : m.Arises) : m.state.Inside := by
  induction h with
  | new hm => exact (fits_of_new hm).inside
  | run _ hends ih => exact inside_of_ends ih hends
  | @reset m _ _ =>
    have hpos := m.state.tape.chunkSize_pos
    refine ⟨Int.le_refl 0, ?_⟩
    simpa [Machine.reset, Tape.reset, Tape.blank, Tape.size] using hpos
  | replace _ _ ih => exact ih

/-- Where the limit has been reached, the run ends and changes nothing. -/
theorem take_of_limit (hfits : m.Fits c) (hmax : m.options.maxSteps = some limit)
    (hle : limit ≤ c.2.steps) :
    ∃ ending, m.take c = .ended ending c.2 ∧
      (m.Enters → ending = if m.program.size ≤ c.1 then .completed
        else .failed (.stepLimit limit ⟨c.2.pointer, c.1⟩)) := by
  have hlimit : Stepwise.limitReached? m.options c.2 = some limit := by
    unfold Stepwise.limitReached?
    rw [hmax]
    exact if_pos hle
  cases m.mode with
  | stepwise _ htake =>
    rw [htake]
    refine ⟨_, ?_, fun _ => rfl⟩
    split
    · rename_i hsize
      exact Stepwise.take_of_size_le hsize
    · rename_i hsize
      exact Stepwise.take_of_limit (Int.not_le.mp hsize) hlimit
  | batch hengine _ htake =>
    have hheld := hfits.held hengine
    have hbudget : isWord (Batch.budget m.options c.2) := by
      have hsteps := hheld.steps limit hmax
      rw [isWord_iff]
      simp only [Batch.budget, hmax, wordBound]
      omega
    rw [htake]
    refine ⟨_, ?_, fun _ => rfl⟩
    split
    · rename_i hsize
      exact Walk.joined_of_ended
        (Batch.advance_of_size_le (Batch.entry_of_held hheld hbudget) hsize)
    · rename_i hsize
      exact Walk.joined_of_ended
        (Batch.advance_of_limit hheld hbudget (Int.not_le.mp hsize) hlimit)
  | refused hengine hwords htake =>
    exact ⟨_, htake c, fun henters => absurd (henters hengine).1 hwords⟩

/-- The run ends before it executes anything, and leaves everything as it is. -/
structure Idles (m : Machine) (ending : Ending) : Prop where
  final : ending.IsFinal
  take : m.take (0, m.state) = .ended ending m.state
  run : ∀ fuel, m.runFor (fuel + 1) = ⟨ending, m.state, #[]⟩

theorem runFor_zero (m : Machine) : (m.runFor 0).state = m.state := by
  unfold runFor
  split
  · rfl
  · split <;> rfl

/-- A machine that minds its limit at the start of a run minds it on the way. -/
theorem Minds.of_fits (hfits : m.Fits (0, m.state)) (hmax : m.options.maxSteps = some limit) :
    m.Minds limit := by
  have hbound {n : Nat} {c : Int × State} (h : m.after n = some c) :
      (c.2.steps : Int) ≤ max limit m.state.steps := by
    refine Walk.steps_le_of_after counts_take (fun hp hle => ?_) hfits h
    obtain ⟨ending, hend, -⟩ := take_of_limit hp hmax hle
    exact ⟨ending, _, hend⟩
  refine ⟨fun h hle => take_of_limit (hfits.after h) hmax hle, fun {rep} h => ?_, fun hle hne => ?_⟩
  · obtain ⟨n, d, hd, hend⟩ := (ends_iff_walk hfits).1 ⟨rep.events, h⟩
    rw [steps_of_ended (hfits.after hd) hend]
    exact hbound hd
  · obtain ⟨ending, hend, hending⟩ := take_of_limit hfits hmax hle
    obtain ⟨events, h⟩ := (ends_iff_walk hfits).2 ⟨0, _, rfl, hend⟩
    refine ⟨ending, events, h, fun henters => ?_⟩
    have hsize : ¬ (m.program.size : Int) ≤ 0 := by
      rw [Int.not_le, Int.natCast_pos, Array.size_pos_iff]
      exact hne
    rw [hending henters, if_neg hsize]

/-- A machine whose run ends at once minds any limit. -/
theorem Minds.of_idles {ending : Ending} (h : m.Idles ending)
    (hempty : m.Enters → m.program = #[] ∧ ending = .completed) : m.Minds limit := by
  refine ⟨fun {n index s} hafter _ => ?_, fun {rep} hends => ?_, fun _ hne => ?_⟩
  · cases n with
    | zero =>
      cases hafter
      refine ⟨ending, h.take, fun henters => ?_⟩
      obtain ⟨hprogram, rfl⟩ := hempty henters
      rw [hprogram]
      rfl
    | succ n =>
      rw [after, Walk.after_of_ended h.take] at hafter
      cases hafter
  · obtain ⟨fuel, rfl, -⟩ := hends
    have hstate : (m.runFor fuel).state = m.state := by
      cases fuel with
      | zero => exact m.runFor_zero
      | succ fuel => rw [h.run fuel]
    rw [hstate]
    exact Int.le_max_right _ _
  · exact ⟨ending, #[], ⟨1, h.run 0, h.final⟩, fun henters => absurd (hempty henters).1 hne⟩

section
variable (hengine : m.options.engine = .batch) (hwords : ∀ i ∈ m.program, isWord i.arg)
include hengine hwords

/-- The batch loop is not entered with numbers that are no words. -/
theorem idles_of_not_words
    (hentry : ¬ (isWord m.state.pointer && isWord (Batch.budget m.options m.state))) :
    m.Idles (.failed .wordTooLarge) := by
  refine ⟨Ending.isFinal_failed _, ?_, fun fuel => ?_⟩
  · rw [take_of_words hengine hwords]
    exact Walk.joined_of_ended (if_neg hentry)
  · rw [runFor_of_words hengine hwords]
    simp only [Batch.runFrom, if_neg hentry]

theorem idles_of_empty
    (hentry : isWord m.state.pointer && isWord (Batch.budget m.options m.state))
    (hempty : m.program = #[]) : m.Idles .completed := by
  have hsize : (m.program.size : Int) ≤ 0 := by
    rw [hempty]
    exact Int.le_refl 0
  refine ⟨Ending.isFinal_completed, ?_, fun fuel => ?_⟩
  · rw [take_of_words hengine hwords]
    exact Walk.joined_of_ended (Batch.advance_of_size_le hentry hsize)
  · rw [runFor_of_words hengine hwords]
    exact Batch.runFrom_of_size_le hentry hsize fuel #[]

end

/-- Where the batch engine is not stopped by the limit that has been reached, there is nothing that
it could execute. -/
theorem minds_of_not_fits (hs : m.state.Inside) (hfits : ¬ m.Fits (0, m.state))
    (hmax : m.options.maxSteps = some limit)
    (hpassed : ¬ (m.options.engine = .batch ∧ limit < m.state.steps ∧ m.Enters ∧
      m.program ≠ #[])) : m.Minds limit := by
  cases m.mode with
  | stepwise hengine =>
    refine absurd ⟨hs, fun hbatch => ?_⟩ hfits
    rw [hengine] at hbatch
    cases hbatch
  | refused hengine hwords htake hrun =>
    exact .of_idles ⟨Ending.isFinal_failed _, htake _, fun fuel => hrun _⟩
      fun henters => absurd (henters hengine).1 hwords
  | batch hengine hwords =>
    by_cases hentry : isWord m.state.pointer && isWord (Batch.budget m.options m.state)
    swap
    · refine .of_idles (idles_of_not_words hengine hwords hentry) fun henters => ?_
      obtain ⟨-, hpointer, hbudget⟩ := henters hengine
      exact absurd (by rw [hpointer, hbudget]; rfl) hentry
    -- the machine enters, so that only an empty program keeps it from passing the limit
    have hnumbers := Bool.and_eq_true _ _ ▸ hentry
    have hempty : m.program = #[] := by
      by_contra hne
      refine hfits ⟨hs, fun _ => ⟨hs, hnumbers.1, fun limit' hmax' => ?_⟩⟩
      obtain rfl : limit = limit' := Option.some_inj.1 (hmax.symm.trans hmax')
      by_contra hlt
      exact hpassed ⟨hengine, Int.not_le.mp hlt, fun _ => ⟨hwords, hnumbers⟩, hne⟩
    exact .of_idles (idles_of_empty hengine hwords hentry hempty) fun _ => ⟨hempty, rfl⟩

end Machine

/-- **A machine minds its limit, unless it is on the batch engine and has passed the limit before
the run.** -/
theorem minds_limit_iff {m : Machine} {limit : Int} (h : m.Arises)
    (hmax : m.options.maxSteps = some limit) :
    m.Minds limit ↔ ¬ (m.options.engine = .batch ∧ limit < m.state.steps ∧ m.Enters ∧
      m.program ≠ #[]) := by
  constructor
  · rintro hminds ⟨hengine, hlt, henters, hne⟩
    obtain ⟨ending, events, ⟨fuel, hrun, -⟩, hending⟩ := hminds.stops (Int.le_of_lt hlt) hne
    rw [hending henters, Machine.runFor_of_words hengine (henters hengine).1] at hrun
    have hspares := (@Batch.runFrom_keeps m.program _ _ 0 h.inside fuel #[]).2 limit hmax hlt
    rw [hrun] at hspares
    exact hspares limit ⟨m.state.pointer, 0⟩ rfl
  · intro hpassed
    by_cases hfits : m.Fits (0, m.state)
    · exact .of_fits hfits hmax
    · exact Machine.minds_of_not_fits h.inside hfits hmax hpassed

/-- The second run of a machine starts where its limit has stopped the first one, and is stopped
there too. -/
theorem minds_limit_iff_reached :
    ∃ m rep, Machine.new [⟨.modify, 1⟩, ⟨.print, 1⟩]
        { maxSteps := some 1, chunkSize := 1, engineName := Engine.batch.name } {} {} = .ok m ∧
      m.Ends rep ∧ rep.ending = .failed (.stepLimit 1 ⟨0, 1⟩) ∧ rep.state.steps = 1 ∧
      Machine.Minds { m with state := rep.state } 1 := by
  have hm : ∃ m rep, Machine.new [⟨.modify, 1⟩, ⟨.print, 1⟩]
      { maxSteps := some 1, chunkSize := 1, engineName := Engine.batch.name } {} {} = .ok m ∧
    m.runFor 2 = rep ∧ rep.ending = .failed (.stepLimit 1 ⟨0, 1⟩) ∧ rep.state.steps = 1 ∧
    m.options.maxSteps = some 1 := ⟨_, _, rfl, rfl, rfl, rfl, rfl⟩
  obtain ⟨m, rep, hm, hrun, hending, hsteps, hmax⟩ := hm
  have hends : m.Ends rep := ⟨2, hrun, by rw [hending]; exact Ending.isFinal_failed _⟩
  refine ⟨m, rep, hm, hends, hending, hsteps, (minds_limit_iff (.run (.new hm) hends) hmax).2 ?_⟩
  rintro ⟨-, hlt, -⟩
  simp [hsteps] at hlt

/-- A limit of one instruction, set when two have been executed: the next run executes both
again. -/
theorem not_forall_minds :
    ¬ ∀ (m : Machine) (limit : Int), m.Arises → m.options.maxSteps = some limit →
      m.Minds limit := by
  intro hminds
  have hm : ∃ m rep rep', Machine.new [⟨.modify, 1⟩, ⟨.print, 1⟩]
      { chunkSize := 1, engineName := Engine.batch.name } {} {} = .ok m ∧
    m.runFor 2 = rep ∧ rep.ending = .completed ∧ rep.state.steps = 2 ∧
    Machine.runFor 2 { m with
      state := rep.state
      options := { maxSteps := some 1, engineName := Engine.batch.name } } = rep' ∧
    rep'.ending = .completed ∧ rep'.state.steps = 4 :=
    ⟨_, _, _, rfl, rfl, rfl, rfl, rfl, rfl, rfl⟩
  obtain ⟨m, rep, rep', hm, hrun, hending, hsteps, hrun', hending', hsteps'⟩ := hm
  have hends : m.Ends rep := ⟨2, hrun, by rw [hending]; exact Ending.isFinal_completed⟩
  have hlimit := hminds
    { m with
      state := rep.state
      options := { maxSteps := some 1, engineName := Engine.batch.name } } 1
    (.replace (.run (.new hm) hends) (by simp)) rfl
  have hcounter := hlimit.counter
    ⟨2, hrun', by rw [hending']; exact Ending.isFinal_completed⟩
  simp [hsteps, hsteps'] at hcounter

end TapeLang
