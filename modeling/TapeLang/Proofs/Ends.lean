import TapeLang.Proofs.Engine

/-!
# How runs end

`Machine.Ends m rep`: given enough fuel, the run of the machine leaves the report behind. More fuel
changes nothing about a final report, and only a scan fails for want of input.
-/

set_option autoImplicit false

namespace TapeLang

/-- The two ends of a run that are not the fault of the program. -/
inductive Finish where
  | completed
  /-- Input is asked for where there is none. -/
  | exhausted
deriving DecidableEq, Repr

/-- The ending, if it is one of these. -/
def Ending.finish? : Ending → Option Finish
  | .completed => some .completed
  | .failed (.inputExhausted _) => some .exhausted
  | _ => none

theorem Ending.completed_of_finish? {e : Ending} (h : e.finish? = some .completed) :
    e = .completed := by
  unfold finish? at h
  split at h <;> first | rfl | cases h

def Result.finish? : Result → Option Finish
  | .done _ => some .completed
  | .stuck i _ => if i.kind = .scan then some .exhausted else none
  | .spins _ _ => none

namespace Result

variable {r : Result} {f : Finish}

theorem isSettled_of_finish? (h : r.finish? = some f) : r.IsSettled := by
  cases r with
  | done v => trivial
  | stuck i v =>
    by_contra hi
    rw [finish?, if_neg (show ¬ i.kind = .scan from hi)] at h
    cases h
  | spins amount v => cases h

theorem not_spins_of_finish? (h : r.finish? = some f) : ¬ r.Spins := by
  intro h
  obtain ⟨amount, v, rfl⟩ := h
  cases h

end Result

/-- More fuel changes nothing. -/
def Ending.IsFinal (e : Ending) : Prop := ∀ index, e ≠ .unfinished index

/-- The machine with another program. -/
def Machine.load (program : Program) (m : Machine) : Machine :=
  { m with program := program.toArray }

/-- The run of the machine comes to its end with a report. -/
def Machine.Ends (m : Machine) (rep : Report) : Prop :=
  ∃ fuel, m.runFor fuel = rep ∧ rep.ending.IsFinal

theorem Ending.isFinal_completed : completed.IsFinal := by
  intro index h
  cases h

theorem Ending.isFinal_failed (error : RunError) : (failed error).IsFinal := by
  intro index h
  cases h

namespace Stepwise

variable {program : Array Instruction} {options : Options}

/-! ## Fuel -/

theorem runFrom_of_isFinal {fuel : Nat} {index : Int} {s : State} {events : Array Event}
    (h : (runFrom program options fuel index s events).ending.IsFinal) (k : Nat) :
    runFrom program options (fuel + k) index s events
      = runFrom program options fuel index s events := by
  induction fuel generalizing index s events with
  | zero => exact absurd rfl (h index)
  | succ fuel ih =>
    rw [Nat.succ_add]
    simp only [runFrom] at h ⊢
    split
    · rename_i hstep
      rw [hstep] at h
      exact ih h
    · rfl
    · rfl

end Stepwise

/-! ## Failures -/

namespace State

variable {s s' : State} {checked : Bool} {index : Int} {place : Place}

theorem noCell_ne_inputExhausted : s.noCell ≠ ⟨.inputExhausted place, s'⟩ := by
  unfold noCell RunError.missing
  intro h
  simp only [Failure.mk.injEq] at h
  obtain ⟨herror, -⟩ := h
  split at herror
  · cases herror
  · split at herror <;> cases herror

theorem store_ne_inputExhausted {value : UInt8} :
    s.store value ≠ .error ⟨.inputExhausted place, s'⟩ := by
  intro h
  unfold store at h
  split at h
  · exact noCell_ne_inputExhausted (Except.error.inj h)
  · cases h

theorem modify_ne_inputExhausted {amount : Int} :
    s.modify checked amount index ≠ .error ⟨.inputExhausted place, s'⟩ := by
  intro h
  unfold modify at h
  simp only at h
  split at h
  · exact noCell_ne_inputExhausted (Except.error.inj h)
  · split at h <;> cases h

theorem reach_ne_inputExhausted {target : Int} :
    s.reach target ≠ .error ⟨.inputExhausted place, s'⟩ := by
  intro h
  unfold reach at h
  split at h <;> cases h

theorem shift_ne_inputExhausted {distance : Int} :
    s.shift distance index ≠ .error ⟨.inputExhausted place, s'⟩ := by
  intro h
  unfold shift at h
  simp only at h
  split at h
  · cases h
  · split at h <;> cases h
    rename_i hreach
    exact reach_ne_inputExhausted hreach

theorem transfer_ne_inputExhausted {sign distance : Int} :
    s.transfer checked sign distance index ≠ .error ⟨.inputExhausted place, s'⟩ := by
  intro h
  unfold transfer at h
  simp only at h
  split at h
  · cases h
  · split at h
    · cases h
      rename_i hreach
      exact reach_ne_inputExhausted hreach
    · split at h
      · exact noCell_ne_inputExhausted (Except.error.inj h)
      · split at h <;> cases h

theorem print_ne_inputExhausted {count : Int} :
    s.print count ≠ .error ⟨.inputExhausted place, s'⟩ := by
  intro h
  unfold print at h
  simp only at h
  split at h
  · exact noCell_ne_inputExhausted (Except.error.inj h)
  · split at h <;> cases h

end State

namespace Stepwise

variable {s s' : State} {checked : Bool} {index : Int} {i : Instruction} {error : RunError}

theorem failed_of_goOn {index : Int} {effect : Except Failure State}
    (h : goOn index effect = .failed error s') : effect = .error ⟨error, s'⟩ := by
  cases effect with
  | error failure => cases h; rfl
  | ok t => cases h

theorem branch_ne_inputExhausted {onZero : Bool} {target : Int} {place : Place} :
    branch onZero target index s ≠ .failed (.inputExhausted place) s' := by
  intro h
  unfold branch at h
  split at h
  · simp only [Outcome.failed.injEq] at h
    obtain ⟨herror, rfl⟩ := h
    have hcell : s.noCell = ⟨.inputExhausted place, s⟩ := by rw [← herror]; rfl
    exact State.noCell_ne_inputExhausted hcell
  · cases h

theorem kind_of_inputExhausted {place : Place}
    (h : execute checked i index s = .failed (.inputExhausted place) s') : i.kind = .scan := by
  obtain ⟨kind, arg⟩ := i
  cases kind with
  | scan => rfl
  | modify => exact absurd (failed_of_goOn h) State.modify_ne_inputExhausted
  | shift => exact absurd (failed_of_goOn h) State.shift_ne_inputExhausted
  | print => exact absurd (failed_of_goOn h) State.print_ne_inputExhausted
  | clear => exact absurd (failed_of_goOn h) State.store_ne_inputExhausted
  | add => exact absurd (failed_of_goOn h) State.transfer_ne_inputExhausted
  | sub => exact absurd (failed_of_goOn h) State.transfer_ne_inputExhausted
  | beginLoop => exact absurd h branch_ne_inputExhausted
  | endLoop => exact absurd h branch_ne_inputExhausted

/-- A scan of input that never breaks fails for want of it, and leaves the state as it is. -/
theorem failed_of_scan (hs : s.Inside) (hreads : s.input.readsLeft = none) (hi : i.kind = .scan)
    (h : execute checked i index s = .failed error s') :
    error = .inputExhausted ⟨s.pointer, index⟩ ∧ s' = s := by
  obtain ⟨kind, arg⟩ := i
  subst hi
  have hscan : s.scan index = .error ⟨error, s'⟩ := failed_of_goOn h
  unfold State.scan Input.read? Input.call? at hscan
  rw [hreads] at hscan
  cases hpending : s.input.pending with
  | nil =>
    simp only [hpending] at hscan
    cases hscan
    exact ⟨rfl, rfl⟩
  | cons byte rest =>
    simp only [hpending] at hscan
    have hget := hs.get?_eq
    unfold State.store at hscan
    rw [hget] at hscan
    cases hscan

/-- A move that has no target fails, and leaves the state as it is. -/
theorem failed_of_move (hi : i.kind = .add ∨ i.kind = .sub) (hp : s.pointer + i.arg < 0)
    (h : execute checked i index s = .failed error s') :
    error = .tapeUnderflow (s.pointer + i.arg) ⟨s.pointer, index⟩ ∧ s' = s := by
  obtain ⟨kind, arg⟩ := i
  rcases hi with rfl | rfl
  · have hmove : s.transfer checked 1 arg index = .error ⟨error, s'⟩ := failed_of_goOn h
    rw [State.transfer, if_pos hp] at hmove
    cases hmove
    exact ⟨rfl, rfl⟩
  · have hmove : s.transfer checked (-1) arg index = .error ⟨error, s'⟩ := failed_of_goOn h
    rw [State.transfer, if_pos hp] at hmove
    cases hmove
    exact ⟨rfl, rfl⟩

end Stepwise

end TapeLang
