import TapeLang.Proofs.Ends

/-!
# Reached configurations

A run of the stepwise engine is a walk whose steps are `Stepwise.next?`, whatever its options, and
`Machine.Reaches` says where the run of a machine comes by. A run ends if and only if it reaches a
configuration in which it stops (`Machine.ends_iff`). Wherever it comes by, the pointer is on a cell
(`Stepwise.inside_of_after`).
-/

set_option autoImplicit false

namespace TapeLang

/-- The run comes by an index in a state. -/
def Machine.Reaches (m : Machine) (index : Int) (s : State) : Prop :=
  ∃ fuel events, m.runFor fuel = ⟨.unfinished index, s, events⟩

namespace Stepwise

/-- How the run stops with a step, if it does. -/
def Outcome.stop? : Outcome → Option (Ending × State)
  | .next _ _ => none
  | .done s => some (.completed, s)
  | .failed error s => some (.failed error, s)

section
variable (program : Array Instruction) (options : Options)

/-- How the run stops in a configuration, if it does. -/
def stop? (c : Int × State) : Option (Ending × State) := (step program options c.1 c.2).stop?

end

variable {program : Array Instruction} {options : Options} {c d : Int × State} {m n : Nat}
  {ending : Ending} {s : State}

theorem isFinal_of_stop? (h : stop? program options c = some (ending, s)) : ending.IsFinal := by
  unfold stop? Outcome.stop? at h
  split at h
  · cases h
  · cases h
    exact Ending.isFinal_completed
  · cases h
    exact Ending.isFinal_failed _

/-- A configuration has a next one, or the run stops there. -/
theorem next?_eq_none_iff :
    next? program options c = none ↔ ∃ stop, stop? program options c = some stop := by
  unfold next? stop?
  cases step program options c.1 c.2 <;> simp [Outcome.stop?]

/-! ## Walks -/

open Walk

/-- A run that stops does not go on. -/
theorem after_eq_none_of_stop? {stop : Ending × State}
    (h : after (next? program options) n c = some d) (hd : stop? program options d = some stop) :
    after (next? program options) (n + 1) c = none := by
  rw [after_succ_last h, next?_eq_none_iff.2 ⟨stop, hd⟩]

/-- A run takes no more steps than there are before it stops. -/
theorem le_of_stop? {d' : Int × State} {stop : Ending × State}
    (h : after (next? program options) n c = some d) (hd : stop? program options d = some stop)
    (h' : after (next? program options) m c = some d') : m ≤ n := by
  by_contra hlt
  have hsome : (after (next? program options) m c).isSome := by rw [h']; rfl
  have hnone := isSome_after_of_le hsome (Nat.lt_of_not_le hlt)
  rw [after_eq_none_of_stop? h hd] at hnone
  cases hnone

/-- A run stops once. -/
theorem stop_unique {d' : Int × State} {stop stop' : Ending × State}
    (h : after (next? program options) n c = some d) (hd : stop? program options d = some stop)
    (h' : after (next? program options) m c = some d')
    (hd' : stop? program options d' = some stop') : stop = stop' := by
  obtain rfl : m = n := Nat.le_antisymm (le_of_stop? h hd h') (le_of_stop? h' hd' h)
  obtain rfl : d = d' := Option.some_inj.1 (h.symm.trans h')
  exact Option.some_inj.1 (hd.symm.trans hd')

/-- A run never takes the pointer off the tape. -/
theorem inside_of_after (hc : c.2.Inside) (h : after (next? program options) n c = some d) :
    d.2.Inside := by
  refine keeps (p := fun c => c.2.Inside) (fun hc hnext => ?_) hc h
  obtain ⟨i, hexec⟩ := exists_execute_of_next? hnext
  exact inside_of_execute hc hexec

theorem memory_of_after (h : after (next? program options) n c = some d) :
    d.2.memory = c.2.memory := by
  refine keeps (p := fun d => d.2.memory = c.2.memory) (fun hd hnext => ?_) rfl h
  obtain ⟨i, hexec⟩ := exists_execute_of_next? hnext
  exact (memory_of_execute hexec).trans hd

/-- A run never runs out of room where there are no bounds. -/
theorem ample_of_after (hc : c.2.Ample) (h : after (next? program options) n c = some d) :
    d.2.Ample :=
  ⟨inside_of_after hc.inside h, (memory_of_after h).trans hc.unlimited⟩

theorem steps_of_after (h : after (next? program options) n c = some d) :
    d.2.steps = c.2.steps + n := by
  induction n generalizing c with
  | zero =>
    cases h
    rfl
  | succ n ih =>
    obtain ⟨c', hnext, h⟩ := exists_first h
    obtain ⟨i, hexec⟩ := exists_execute_of_next? hnext
    rw [ih h, steps_of_execute hexec]
    omega

/-! ## Runs -/

/-- A run goes on as it does from any configuration on its way. -/
theorem runFrom_after (h : after (next? program options) n c = some d) (events : Array Event) :
    ∃ events', ∀ fuel, runFrom program options (n + fuel) c.1 c.2 events
      = runFrom program options fuel d.1 d.2 events' := by
  induction n generalizing c events with
  | zero =>
    cases h
    exact ⟨events, fun fuel => by rw [Nat.zero_add]⟩
  | succ n ih =>
    obtain ⟨c', hnext, h⟩ := exists_first h
    obtain ⟨events', hrest⟩ := ih h (noteGrowth c.2.tape.size c'.2.tape.size events)
    refine ⟨events', fun fuel => ?_⟩
    rw [Nat.succ_add, runFrom, step_of_next? hnext]
    exact hrest fuel

/-- A run ends in a configuration on its way. -/
theorem runFrom_of_stop? (h : after (next? program options) n c = some d)
    (hd : stop? program options d = some (ending, s)) (events : Array Event) :
    ∃ events', runFrom program options (n + 1) c.1 c.2 events = ⟨ending, s, events'⟩ := by
  obtain ⟨events', hrest⟩ := runFrom_after h events
  rw [hrest, runFrom]
  unfold stop? at hd
  cases hstep : step program options d.1 d.2 with
  | next index t =>
    rw [hstep] at hd
    cases hd
  | done t =>
    rw [hstep] at hd
    cases hd
    exact ⟨_, rfl⟩
  | failed error t =>
    rw [hstep] at hd
    cases hd
    exact ⟨_, rfl⟩

variable (program options) in
/-- What a run has come to when the fuel is used up, or before. -/
theorem runFrom_cases (fuel : Nat) (c : Int × State) (events : Array Event) :
    (∃ d events', after (next? program options) fuel c = some d ∧
      runFrom program options fuel c.1 c.2 events = ⟨.unfinished d.1, d.2, events'⟩) ∨
    ∃ n d ending s events', n < fuel ∧ after (next? program options) n c = some d ∧
      stop? program options d = some (ending, s) ∧
      runFrom program options fuel c.1 c.2 events = ⟨ending, s, events'⟩ := by
  induction fuel generalizing c events with
  | zero => exact .inl ⟨c, events, rfl, rfl⟩
  | succ fuel ih =>
    rw [runFrom]
    cases hstep : step program options c.1 c.2 with
    | next index s =>
      have hnext := next?_of_step hstep
      simp only [after_succ hnext]
      rcases ih (index, s) _ with h | ⟨n, d, ending, s, events', hn, hafter, h⟩
      · exact .inl h
      · exact .inr ⟨n + 1, d, ending, s, events', by omega, by rwa [after_succ hnext], h⟩
    | done s =>
      refine .inr ⟨0, c, .completed, s, events, by omega, rfl, ?_, rfl⟩
      rw [stop?, hstep]
      rfl
    | failed error s =>
      refine .inr ⟨0, c, .failed error, s, _, by omega, rfl, ?_, rfl⟩
      rw [stop?, hstep]
      rfl

theorem after_of_unfinished {fuel : Nat} {index : Int} {events events' : Array Event}
    (h : runFrom program options fuel c.1 c.2 events = ⟨.unfinished index, s, events'⟩) :
    after (next? program options) fuel c = some (index, s) := by
  rcases runFrom_cases program options fuel c events with
    ⟨⟨_, _⟩, _, hafter, hrun⟩ | ⟨_, _, _, _, _, -, -, hstop, hrun⟩
  · rw [h] at hrun
    cases hrun
    exact hafter
  · rw [h] at hrun
    cases hrun
    exact absurd rfl (isFinal_of_stop? hstop index)

theorem after_eq_none_of_isFinal {fuel : Nat} {events : Array Event}
    (h : (runFrom program options fuel c.1 c.2 events).ending.IsFinal) :
    after (next? program options) fuel c = none := by
  cases hafter : after (next? program options) fuel c with
  | none => rfl
  | some d =>
    obtain ⟨events', hrest⟩ := runFrom_after hafter events
    have hzero := hrest 0
    rw [Nat.add_zero] at hzero
    rw [hzero] at h
    exact absurd rfl (h d.1)

end Stepwise

/-! ## Machines -/

namespace Machine

variable {m : Machine} {index : Int} {s : State} {ending : Ending}

theorem runFor_of_stepwise (hm : m.options.engine = .stepwise) (fuel : Nat) :
    m.runFor fuel = Stepwise.runFrom m.program m.options fuel 0 m.state #[] := by
  rw [runFor, hm]

theorem reaches_iff (hm : m.options.engine = .stepwise) :
    m.Reaches index s ↔
      ∃ n, Walk.after (Stepwise.next? m.program m.options) n (0, m.state) = some (index, s) := by
  constructor
  · intro h
    obtain ⟨fuel, events, hrun⟩ := h
    rw [runFor_of_stepwise hm] at hrun
    exact ⟨fuel, Stepwise.after_of_unfinished (c := (0, m.state)) hrun⟩
  · intro h
    obtain ⟨n, hafter⟩ := h
    obtain ⟨events, hrest⟩ := Stepwise.runFrom_after hafter #[]
    have hrun := hrest 0
    rw [← runFor_of_stepwise hm] at hrun
    exact ⟨n + 0, events, hrun⟩

/-- **A run ends where it stops.** -/
theorem ends_iff (hm : m.options.engine = .stepwise) :
    (∃ events, m.Ends ⟨ending, s, events⟩) ↔
      ∃ n c, Walk.after (Stepwise.next? m.program m.options) n (0, m.state) = some c ∧
        Stepwise.stop? m.program m.options c = some (ending, s) := by
  constructor
  · intro h
    obtain ⟨events, fuel, hrun, hfinal⟩ := h
    rw [runFor_of_stepwise hm] at hrun
    rcases Stepwise.runFrom_cases m.program m.options fuel (0, m.state) #[] with
      ⟨d, _, -, hrun'⟩ | ⟨n, d, _, _, _, -, hafter, hstop, hrun'⟩
    · rw [hrun] at hrun'
      cases hrun'
      exact absurd rfl (hfinal d.1)
    · rw [hrun] at hrun'
      cases hrun'
      exact ⟨n, d, hafter, hstop⟩
  · intro h
    obtain ⟨n, c, hafter, hstop⟩ := h
    obtain ⟨events, hrun⟩ := Stepwise.runFrom_of_stop? hafter hstop #[]
    rw [← runFor_of_stepwise hm] at hrun
    exact ⟨events, n + 1, hrun, Stepwise.isFinal_of_stop? hstop⟩

end Machine

end TapeLang
