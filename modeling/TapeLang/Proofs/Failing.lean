import TapeLang.Proofs.Machines
import TapeLang.Proofs.Safety

/-!
# Failing instructions

With the pointer on a cell, an instruction fails in one of six ways (`Instruction.Fails`). It has
computed its result before it writes anything, so that a failure leaves the state as it was found
(`Failure.Clean`), but for copies of a cell that are printed already and for cells that the tape has
got for a difference. Errors of the run itself, such as a reached limit, change nothing at all.
-/

set_option autoImplicit false

namespace TapeLang

/-- The cell at a distance with the current one, times `sign`, added. -/
def View.sum (sign distance : Int) (v : View) : Int :=
  (v.cells (v.pointer + distance).toNat).toNat + sign * v.cell.toNat

/-- The cell that a result is computed for, and the result before it is wrapped. -/
def Instruction.result? (i : Instruction) (v : View) : Option (Int × Int) :=
  match i.kind with
  | .modify => some (v.pointer, v.cell.toNat + i.arg)
  | .add => some (v.pointer + i.arg, v.sum 1 i.arg)
  | .sub => some (v.pointer + i.arg, v.sum (-1) i.arg)
  | _ => none

/-- All the ways in which an instruction fails, with the pointer on a cell. -/
inductive Instruction.Fails (checked : Bool) (i : Instruction) (index : Int) (s : State) :
    Failure → Prop
  | underflow : i.kind.hasTarget → s.pointer + i.arg < 0 →
      Fails checked i index s ⟨.tapeUnderflow (s.pointer + i.arg) ⟨s.pointer, index⟩, s⟩
  | noRoom {error : RoomError} : i.refusal? s = some error →
      Fails checked i index s ⟨.noRoom error, s⟩
  | overflow {cell value : Int} : i.refusal? s = none → checked →
      i.result? s.view = some (cell, value) → 0 ≤ cell → ¬ isByte value → Fails checked i index s
        ⟨.cellOverflow cell value ⟨s.pointer, index⟩, { s with tape := s.tape.extend cell }⟩
  | exhausted {input : Input} : i.kind = .scan → s.input.read? = some (none, input) →
      Fails checked i index s ⟨.inputExhausted ⟨s.pointer, index⟩, { s with input }⟩
  | unread : i.kind = .scan → s.input.read? = none → Fails checked i index s ⟨.readFailed, s⟩
  | closed : i.kind = .print → (s.output.putMany s.view.cell i.arg.toNat).2 = false →
      Fails checked i index s
        ⟨.pipeClosed, { s with output := (s.output.putMany s.view.cell i.arg.toNat).1 }⟩

/-- Fewer copies of the current cell have been printed than asked for. -/
def Failure.HasPrinted (i : Instruction) (s : State) (f : Failure) : Prop :=
  i.kind = .print ∧ f.error = .pipeClosed ∧ ∃ n : Nat, n < i.arg ∧
    f.state.output = { s.output with
      written := s.output.written ++ Array.replicate n (s.tape.get s.pointer) }

/-- The tape has got cells for a checked difference that is no byte. -/
def Failure.HasGrown (checked : Bool) (i : Instruction) (s : State) (f : Failure) : Prop :=
  i.kind = .sub ∧ checked ∧ s.tape.size ≤ s.pointer + i.arg ∧
    (∃ cell value place, f.error = .cellOverflow cell value place) ∧
    ∃ n, f.state.tape = { s.tape with cells := s.tape.cells ++ Array.replicate n 0 }

/-- A failure leaves the state that the instruction at an index has found as it was, but for what
has been printed and for the length of the tape. -/
structure Failure.Clean (checked : Bool) (i? : Option Instruction) (index : Int) (s : State)
    (f : Failure) : Prop where
  steps : f.state.steps = s.steps
  pointer : f.state.pointer = s.pointer
  cells : ∀ place : Nat, f.state.tape.get place = s.tape.get place
  tape : f.state.tape = s.tape ∨ ∃ i, i? = some i ∧ f.HasGrown checked i s
  output : f.state.output = s.output ∨ ∃ i, i? = some i ∧ f.HasPrinted i s
  pending : f.state.input.pending = s.input.pending
  consumed : f.state.input.consumed = s.input.consumed
  place : ∀ place, f.error.place? = some place → place = ⟨f.state.pointer, index⟩

/-! ## Results -/

namespace State.Inside

variable {s : State} (hs : s.Inside) {arg : Int}
include hs

theorem result?_modify : Instruction.result? ⟨.modify, arg⟩ s.view
    = some (s.pointer, s.view.cell.toNat + arg) := by
  rw [hs.pointer_eq]
  rfl

theorem result?_add : Instruction.result? ⟨.add, arg⟩ s.view
    = some (s.pointer + arg, s.view.sum 1 arg) := by
  rw [hs.pointer_eq]
  rfl

theorem result?_sub : Instruction.result? ⟨.sub, arg⟩ s.view
    = some (s.pointer + arg, s.view.sum (-1) arg) := by
  rw [hs.pointer_eq]
  rfl

/-- A result is computed for the current cell or for the target. -/
theorem cell_of_result? {i : Instruction} {cell value : Int}
    (h : i.result? s.view = some (cell, value)) :
    cell = s.pointer ∨ (i.kind.hasTarget ∧ cell = s.pointer + i.arg) := by
  obtain ⟨kind, arg⟩ := i
  cases kind with
  | modify =>
    rw [hs.result?_modify] at h
    cases h
    exact .inl rfl
  | add =>
    rw [hs.result?_add] at h
    cases h
    exact .inr ⟨rfl, rfl⟩
  | sub =>
    rw [hs.result?_sub] at h
    cases h
    exact .inr ⟨rfl, rfl⟩
  | _ => cases h

/-- Behind the tape there are zeros, so that a sum there is a byte. -/
theorem isByte_sum (h : s.tape.size ≤ s.pointer + arg) : isByte (s.view.sum 1 arg) := by
  have hzero : s.view.cells (s.view.pointer + arg).toNat = 0 := by
    apply Tape.get_of_le
    have hpointer := hs.pointer_eq
    omega
  unfold View.sum
  rw [hzero]
  simpa using isByte_toNat s.view.cell

end State.Inside

/-! ## Effects that fail -/

namespace State

variable {s : State} {checked : Bool} {index distance : Int} {f : Failure}

theorem modify_eq_error_iff (hs : s.Inside) {amount : Int} :
    s.modify checked amount index = .error f ↔
      checked ∧ ¬ isByte (s.view.cell.toNat + amount) ∧
        f = ⟨.cellOverflow s.pointer (s.view.cell.toNat + amount) ⟨s.pointer, index⟩, s⟩ := by
  unfold modify
  rw [hs.get?_eq]
  cases checked <;> cases h : isByte (s.view.cell.toNat + amount) <;> simp [h, eq_comm]

theorem shift_of_neg (h : s.pointer + distance < 0) :
    s.shift distance index
      = .error ⟨.tapeUnderflow (s.pointer + distance) ⟨s.pointer, index⟩, s⟩ := if_pos h

theorem transfer_of_neg {sign : Int} (h : s.pointer + distance < 0) :
    s.transfer checked sign distance index
      = .error ⟨.tapeUnderflow (s.pointer + distance) ⟨s.pointer, index⟩, s⟩ := if_pos h

section
variable (hroom : s.tape.refusal? s.memory (s.pointer + distance) = none)
include hroom

theorem shift_eq_error_iff :
    s.shift distance index = .error f ↔
      s.pointer + distance < 0 ∧
        f = ⟨.tapeUnderflow (s.pointer + distance) ⟨s.pointer, index⟩, s⟩ := by
  unfold shift
  simp only [reach_eq_ok hroom]
  by_cases h : s.pointer + distance < 0 <;> simp [h, eq_comm]

/-- A transfer to a place on the tape or behind it, in terms of the view. -/
theorem transfer_of_nonneg (hs : s.Inside) {sign : Int} (h : 0 ≤ s.pointer + distance) :
    s.transfer checked sign distance index =
      let value := s.view.sum sign distance
      let tape := s.tape.extend (s.pointer + distance)
      if checked && !isByte value then
        .error ⟨.cellOverflow (s.pointer + distance) value ⟨s.pointer, index⟩, { s with tape }⟩
      else .ok { s with
        tape := (tape.set (s.pointer + distance) (byteOf value)).set s.pointer 0 } := by
  obtain ⟨place, hplace⟩ := Int.eq_ofNat_of_zero_le h
  have hcell := (hs.extend place).get?_eq
  have hget : (s.tape.extend place).get place = s.view.cells place := Tape.get_extend _
  have hsum : s.view.sum sign distance
      = (s.view.cells place).toNat + sign * s.view.cell.toNat := by
    unfold View.sum
    rw [← hs.pointer_eq, hplace, Int.toNat_natCast]
  rw [s.view_extend] at hcell
  unfold transfer
  simp only [if_neg (Int.not_lt.mpr h), reach_eq_ok hroom]
  simp only [hplace, hcell, hget, hsum]

theorem transfer_eq_error_iff (hs : s.Inside) {sign : Int} :
    s.transfer checked sign distance index = .error f ↔
      (s.pointer + distance < 0 ∧
        f = ⟨.tapeUnderflow (s.pointer + distance) ⟨s.pointer, index⟩, s⟩) ∨
      (0 ≤ s.pointer + distance ∧ checked ∧ ¬ isByte (s.view.sum sign distance) ∧
        f = ⟨.cellOverflow (s.pointer + distance) (s.view.sum sign distance) ⟨s.pointer, index⟩,
          { s with tape := s.tape.extend (s.pointer + distance) }⟩) := by
  by_cases h : s.pointer + distance < 0
  · have h' := Int.not_le.mpr h
    simp only [transfer_of_neg h, h, h', true_and, false_and, or_false, Except.error.injEq]
    exact eq_comm
  · have h' := Int.not_lt.mp h
    rw [transfer_of_nonneg hroom hs h']
    simp only [h, h', true_and, false_and, false_or]
    cases checked <;> cases hbyte : isByte (s.view.sum sign distance) <;> simp [eq_comm]

end

theorem print_eq_error_iff (hs : s.Inside) {count : Int} :
    s.print count = .error f ↔
      (s.output.putMany s.view.cell count.toNat).2 = false ∧
        f = ⟨.pipeClosed, { s with output := (s.output.putMany s.view.cell count.toNat).1 }⟩ := by
  unfold print
  rw [hs.get?_eq]
  cases h : (s.output.putMany s.view.cell count.toNat).2 <;> simp [h, eq_comm]

theorem scan_eq_error_iff (hs : s.Inside) :
    s.scan index = .error f ↔
      (s.input.read? = none ∧ f = ⟨.readFailed, s⟩) ∨
      ∃ input, s.input.read? = some (none, input) ∧
        f = ⟨.inputExhausted ⟨s.pointer, index⟩, { s with input }⟩ := by
  unfold scan
  cases hread : s.input.read? with
  | none => simp [eq_comm]
  | some read =>
    obtain ⟨byte, input⟩ := read
    cases byte with
    | none => simp [eq_comm]
    | some byte =>
      have hget : s.tape.get? s.pointer = some s.view.cell := hs.get?_eq
      simp [store, hget]

end State

/-! ## Instructions that fail -/

namespace Stepwise

variable {s : State} {checked : Bool} {index : Int} {i : Instruction} {f : Failure}

theorem goOn_eq_failed_iff {effect : Except Failure State} :
    goOn index effect = .failed f.error f.state ↔ effect = .error f := by
  cases effect with
  | error f' =>
    obtain ⟨error, t⟩ := f
    obtain ⟨error', t'⟩ := f'
    simp [goOn]
  | ok t => simp [goOn]

section
variable (hs : s.Inside)
include hs

theorem fails_of_room (hroom : i.refusal? s = none)
    (h : execute checked i index s = .failed f.error f.state) : i.Fails checked index s f := by
  obtain ⟨kind, arg⟩ := i
  have htarget (hkind : kind.hasTarget) :
      s.tape.refusal? s.memory (s.pointer + arg) = none := by
    rwa [Instruction.refusal?_of_hasTarget hkind] at hroom
  have heffect {effect : Except Failure State}
      (h : goOn (index + 1) effect = .failed f.error f.state) : effect = .error f :=
    goOn_eq_failed_iff.1 h
  have hmoves (sign : Int) (hkind : kind.hasTarget)
      (hresult : Instruction.result? ⟨kind, arg⟩ s.view
        = some (s.pointer + arg, s.view.sum sign arg))
      (hmove : s.transfer checked sign arg index = .error f) :
      Instruction.Fails checked ⟨kind, arg⟩ index s f := by
    rcases (State.transfer_eq_error_iff (htarget hkind) hs).1 hmove with
      ⟨hneg, rfl⟩ | ⟨h₀, hchecked, hbyte, rfl⟩
    · exact .underflow hkind hneg
    · exact .overflow hroom hchecked hresult h₀ hbyte
  cases kind with
  | modify =>
    obtain ⟨hchecked, hbyte, rfl⟩ := (State.modify_eq_error_iff hs).1 (heffect h)
    have hfails : Instruction.Fails checked ⟨.modify, arg⟩ index s _ :=
      .overflow hroom hchecked hs.result?_modify hs.1 hbyte
    rwa [Tape.extend_of_lt _ _ hs.2] at hfails
  | shift =>
    obtain ⟨hneg, rfl⟩ := (State.shift_eq_error_iff (htarget rfl)).1 (heffect h)
    exact .underflow rfl hneg
  | print =>
    obtain ⟨hclosed, rfl⟩ := (State.print_eq_error_iff hs).1 (heffect h)
    exact .closed rfl hclosed
  | scan =>
    rcases (State.scan_eq_error_iff hs).1 (heffect h) with ⟨hread, rfl⟩ | ⟨input, hread, rfl⟩
    · exact .unread rfl hread
    · exact .exhausted rfl hread
  | clear => exact absurd (heffect h) (State.store_ne_error hs 0)
  | add => exact hmoves 1 rfl hs.result?_add (heffect h)
  | sub => exact hmoves (-1) rfl hs.result?_sub (heffect h)
  | beginLoop =>
    rw [execute_beginLoop hs] at h
    cases h
  | endLoop =>
    rw [execute_endLoop hs] at h
    cases h

theorem fails_of_execute (h : execute checked i index s = .failed f.error f.state) :
    i.Fails checked index s f := by
  cases hroom : i.refusal? s with
  | none => exact fails_of_room hs hroom h
  | some error =>
    rw [execute_of_refusal? hroom] at h
    obtain ⟨error', t⟩ := f
    cases h
    exact .noRoom hroom

theorem execute_of_fails (h : i.Fails checked index s f) :
    execute checked i index s = .failed f.error f.state := by
  obtain ⟨kind, arg⟩ := i
  cases h with
  | underflow hkind hneg =>
    cases kind with
    | shift => exact goOn_eq_failed_iff.2 (State.shift_of_neg hneg)
    | add => exact goOn_eq_failed_iff.2 (State.transfer_of_neg hneg)
    | sub => exact goOn_eq_failed_iff.2 (State.transfer_of_neg hneg)
    | _ => cases hkind
  | noRoom hrefused => exact execute_of_refusal? hrefused
  | overflow hroom hchecked hresult h₀ hbyte =>
    have htarget (hkind : kind.hasTarget) :
        s.tape.refusal? s.memory (s.pointer + arg) = none := by
      rwa [Instruction.refusal?_of_hasTarget hkind] at hroom
    cases kind with
    | modify =>
      rw [hs.result?_modify] at hresult
      cases hresult
      refine goOn_eq_failed_iff.2 ((State.modify_eq_error_iff hs).2 ⟨hchecked, hbyte, ?_⟩)
      rw [Tape.extend_of_lt _ _ hs.2]
    | add =>
      rw [hs.result?_add] at hresult
      cases hresult
      exact goOn_eq_failed_iff.2
        ((State.transfer_eq_error_iff (htarget rfl) hs).2 (.inr ⟨h₀, hchecked, hbyte, rfl⟩))
    | sub =>
      rw [hs.result?_sub] at hresult
      cases hresult
      exact goOn_eq_failed_iff.2
        ((State.transfer_eq_error_iff (htarget rfl) hs).2 (.inr ⟨h₀, hchecked, hbyte, rfl⟩))
    | _ => cases hresult
  | exhausted hkind hread =>
    cases hkind
    exact goOn_eq_failed_iff.2 ((State.scan_eq_error_iff hs).2 (.inr ⟨_, hread, rfl⟩))
  | unread hkind hread =>
    cases hkind
    exact goOn_eq_failed_iff.2 ((State.scan_eq_error_iff hs).2 (.inl ⟨hread, rfl⟩))
  | closed hkind hclosed =>
    cases hkind
    exact goOn_eq_failed_iff.2 ((State.print_eq_error_iff hs).2 ⟨hclosed, rfl⟩)

end

/-! ## Steps -/

section
variable (program : Array Instruction) (options : Options)

/-- A step in terms of the instruction at the index. -/
theorem step_eq_of_fetch? (index : Int) (s : State) :
    step program options index s =
      if program.size ≤ index then .done s
      else match limitReached? options s with
        | some limit => .failed (.stepLimit limit ⟨s.pointer, index⟩) s
        | none =>
          match Batch.fetch? program index with
          | some i => execute (!options.allowOverflows) i index s
          | none => .failed (.noSuchInstruction index) s := by
  unfold step Batch.fetch?
  cases resolve? program.size index with
  | none => rfl
  | some place =>
    simp only
    cases program[place]? <;> rfl

/-- All that the stepwise engine can make of the instruction at an index. -/
inductive Moves (c : Int × State) : Batch.Resumption → Prop
  | completed : program.size ≤ c.1 → Moves c (.ended .completed c.2)
  | limit {limit : Int} : c.1 < program.size → limitReached? options c.2 = some limit →
      Moves c (.ended (.failed (.stepLimit limit ⟨c.2.pointer, c.1⟩)) c.2)
  | missing : limitReached? options c.2 = none → Batch.fetch? program c.1 = none →
      Moves c (.ended (.failed (.noSuchInstruction c.1)) c.2)
  | fails {i : Instruction} {f : Failure} : limitReached? options c.2 = none →
      Batch.fetch? program c.1 = some i → i.Fails (!options.allowOverflows) c.1 c.2 f →
      Moves c (.ended (.failed f.error) f.state)
  | next {i : Instruction} {index : Int} {s : State} : limitReached? options c.2 = none →
      Batch.fetch? program c.1 = some i →
      execute (!options.allowOverflows) i c.1 c.2 = .next index s → Moves c (.resume index s)

/-- **The stepwise engine does nothing else.** -/
theorem moves_take {c : Int × State} (hc : c.2.Inside) :
    Moves program options c (take program options c) := by
  unfold take
  rw [step_eq_of_fetch?]
  by_cases hsize : (program.size : Int) ≤ c.1
  · rw [if_pos hsize]
    exact .completed hsize
  rw [if_neg hsize]
  cases hlimit : limitReached? options c.2 with
  | some limit => exact .limit (Int.not_le.mp hsize) hlimit
  | none =>
    cases hi : Batch.fetch? program c.1 with
    | none => exact .missing hlimit hi
    | some i =>
      simp only
      cases hexec : execute (!options.allowOverflows) i c.1 c.2 with
      | next index s => exact .next hlimit hi hexec
      | done s => exact absurd hexec (execute_ne_done hc)
      | failed error s => exact .fails hlimit hi (fails_of_execute hc (f := ⟨error, s⟩) hexec)

end

end Stepwise

/-! ## What a failure leaves -/

/-- Writing stops after fewer bytes than there are. -/
theorem Output.putMany_eq_of_closed {byte : UInt8} {count : Nat} {output : Output}
    (h : (output.putMany byte count).2 = false) :
    ∃ n < count, (output.putMany byte count).1
      = { output with written := output.written ++ Array.replicate n byte } := by
  induction count generalizing output with
  | zero => cases h
  | succ count ih =>
    unfold Output.putMany at h ⊢
    by_cases hfull : output.isFull
    · rw [if_pos hfull]
      exact ⟨0, Nat.succ_pos count, by simp⟩
    · rw [if_neg hfull] at h ⊢
      obtain ⟨n, hn, hwritten⟩ := ih h
      refine ⟨n + 1, Nat.succ_lt_succ hn, ?_⟩
      rw [hwritten, Array.push_eq_append, Array.append_assoc, ← Array.replicate_succ']

/-- A read finds the next byte, or nothing at the end of the data. -/
theorem Input.read?_eq_some {input rest : Input} {byte? : Option UInt8}
    (h : input.read? = some (byte?, rest)) :
    (byte? = none ∧ input.pending = [] ∧ rest.pending = [] ∧ rest.consumed = input.consumed) ∨
      ∃ byte, byte? = some byte ∧ input.pending = byte :: rest.pending ∧
        rest.consumed = input.consumed + 1 := by
  obtain ⟨_ | ⟨byte, pending⟩, consumed, _ | _ | n⟩ := input <;> cases h
  all_goals simp

/-- A read behind the end of the data consumes nothing. -/
theorem Input.keeps_of_read? {input rest : Input} (h : input.read? = some (none, rest)) :
    input.pending = [] ∧ rest.pending = [] ∧ rest.consumed = input.consumed := by
  rcases read?_eq_some h with ⟨-, hkeeps⟩ | ⟨byte, hbyte, -⟩
  · exact hkeeps
  · cases hbyte

theorem Tape.exists_extend_eq {t : Tape} {index : Int} (h : t.size ≤ index) :
    ∃ n, t.extend index = { t with cells := t.cells ++ Array.replicate n 0 } :=
  ⟨_, if_neg (Int.not_lt.mpr h)⟩

theorem RunError.place?_missing (index : Int) (size : Nat) :
    (missing index size).place? = none := by
  unfold missing
  split
  · rfl
  · split <;> rfl

namespace Failure.Clean

variable {s : State} {checked : Bool} {index : Int} {i : Instruction} {i? : Option Instruction}
  {f : Failure}

/-- A failure that changes nothing and names the place. -/
theorem placed (hstate : f.state = s) (hplace : f.error.place? = some ⟨s.pointer, index⟩) :
    f.Clean checked i? index s := by
  obtain ⟨error, state⟩ := f
  subst hstate
  refine ⟨rfl, rfl, fun _ => rfl, .inl rfl, .inl rfl, rfl, rfl, fun place h => ?_⟩
  exact Option.some.inj (h.symm.trans hplace)

/-- A failure that changes nothing and names no place. -/
theorem unplaced (hstate : f.state = s) (hplace : f.error.place? = none) :
    f.Clean checked i? index s := by
  obtain ⟨error, state⟩ := f
  subst hstate
  refine ⟨rfl, rfl, fun _ => rfl, .inl rfl, .inl rfl, rfl, rfl, fun place h => ?_⟩
  rw [hplace] at h
  cases h

/-- Of the results that are no bytes, only a difference is for a cell behind the tape. -/
theorem hasGrown_of_result? (hs : s.Inside) {cell value : Int} {place : Place}
    (hchecked : checked) (hresult : i.result? s.view = some (cell, value)) (hbyte : ¬ isByte value)
    (hsize : s.tape.size ≤ cell) :
    HasGrown checked i s
      ⟨.cellOverflow cell value place, { s with tape := s.tape.extend cell }⟩ := by
  obtain ⟨kind, arg⟩ := i
  cases kind with
  | modify =>
    rw [hs.result?_modify] at hresult
    cases hresult
    exact absurd hs.2 (Int.not_lt.mpr hsize)
  | add =>
    rw [hs.result?_add] at hresult
    cases hresult
    exact absurd (hs.isByte_sum hsize) hbyte
  | sub =>
    rw [hs.result?_sub] at hresult
    cases hresult
    exact ⟨rfl, hchecked, hsize, ⟨_, _, _, rfl⟩, Tape.exists_extend_eq hsize⟩
  | _ => cases hresult

/-- **An instruction that fails leaves the state as it was.** -/
theorem of_fails (hs : s.Inside) (h : i.Fails checked index s f) :
    f.Clean checked (some i) index s := by
  cases h with
  | underflow hkind hneg => exact .placed rfl rfl
  | noRoom hrefused => exact .unplaced rfl rfl
  | @overflow cell value hroom hchecked hresult h₀ hbyte =>
    refine ⟨rfl, rfl, fun place => Tape.get_extend cell, ?_, .inl rfl, rfl, rfl, ?_⟩
    · by_cases hsize : cell < s.tape.size
      · exact .inl (Tape.extend_of_lt _ _ hsize)
      · exact .inr ⟨i, rfl, hasGrown_of_result? hs hchecked hresult hbyte (Int.not_lt.mp hsize)⟩
    · intro place hplace
      exact (Option.some.inj hplace).symm
  | @exhausted input hkind hread =>
    obtain ⟨hpending, hrest, hconsumed⟩ := Input.keeps_of_read? hread
    refine ⟨rfl, rfl, fun _ => rfl, .inl rfl, .inl rfl, hrest.trans hpending.symm, hconsumed, ?_⟩
    intro place hplace
    exact (Option.some.inj hplace).symm
  | unread hkind hread => exact .unplaced rfl rfl
  | closed hkind hclosed =>
    obtain ⟨n, hn, hwritten⟩ := Output.putMany_eq_of_closed hclosed
    refine ⟨rfl, rfl, fun _ => rfl, .inl rfl, .inr ⟨i, rfl, hkind, rfl, n, by omega, ?_⟩, rfl, rfl,
      fun place hplace => by cases hplace⟩
    rw [hs.get_eq]
    exact hwritten

end Failure.Clean

/-! ## Runs that fail -/

section
variable {options : Options} {index : Int} {s s' : State} {error : RunError}

theorem Stepwise.clean_of_take {program : Array Instruction} (hs : s.Inside)
    (h : take program options (index, s) = .ended (.failed error) s') :
    Failure.Clean (!options.allowOverflows) (Batch.fetch? program index) index s ⟨error, s'⟩ := by
  have hmoves := moves_take program options (c := (index, s)) hs
  rw [h] at hmoves
  cases hmoves with
  | limit => exact .placed rfl rfl
  | missing => exact .unplaced rfl rfl
  | fails _ hi hfails =>
    rw [show Batch.fetch? program index = _ from hi]
    exact .of_fails hs hfails

theorem Batch.clean_of_turn {code : Array Instruction} (hcode : ∀ i ∈ code, isWord i.arg)
    (hheld : Held options (index, s)) (checked : Bool)
    (h : turn code options (index, s) = .ended (.failed error) s') :
    Failure.Clean checked (fetch? code index) index s ⟨error, s'⟩ := by
  have hs := hheld.inside
  have hturns := turns_turn hcode hheld
  rw [h] at hturns
  cases hturns with
  | wordTooLarge => exact .unplaced rfl rfl
  | limit => exact .placed rfl rfl
  | missing => exact .unplaced rfl (RunError.place?_missing _ _)
  | underflow target => exact .placed rfl rfl
  | noRoom _ hrefused => exact .unplaced rfl rfl
  | print hi hkind heffect =>
    rw [show fetch? code index = _ from hi]
    obtain ⟨hclosed, rfl⟩ := (State.print_eq_error_iff hs).1 heffect
    exact .of_fails hs (.closed hkind hclosed)
  | scan hi hkind heffect =>
    rw [show fetch? code index = _ from hi]
    rcases (State.scan_eq_error_iff hs).1 heffect with ⟨hread, rfl⟩ | ⟨input, hread, rfl⟩
    · exact .of_fails hs (.unread hkind hread)
    · exact .of_fails hs (.exhausted hkind hread)

theorem Machine.clean_of_take {m : Machine} (hfits : m.Fits (index, s))
    (h : m.take (index, s) = .ended (.failed error) s') :
    Failure.Clean (!m.options.allowOverflows) (Batch.fetch? m.program index) index s
      ⟨error, s'⟩ := by
  cases m.mode with
  | stepwise _ htake =>
    rw [htake] at h
    exact Stepwise.clean_of_take hfits.inside h
  | batch hengine hwords htake =>
    rw [htake] at h
    exact Batch.clean_of_turn hwords (hfits.held hengine) _ h
  | refused _ _ htake =>
    rw [htake] at h
    cases h
    exact .unplaced rfl rfl

end

/-- **A failing instruction leaves the machine as it was**, on either engine: a run that stops with
an error has completed as many instructions as it counts, and leaves what they have left, but for
copies of a cell that are printed and for cells that the tape has got for a checked difference. -/
theorem failure_leaves_state {program : Program} {options : Options} {input : Input}
    {output : Output} {memory : Memory} {m : Machine} {error : RunError} {s' : State}
    {events : Array Event} (hm : Machine.new program options input output memory = .ok m)
    (h : m.Ends ⟨.failed error, s', events⟩) :
    ∃ index s, m.after s'.steps = some (index, s) ∧
      m.take (index, s) = .ended (.failed error) s' ∧
      Failure.Clean (!options.allowOverflows) (Batch.fetch? program.toArray index) index s
        ⟨error, s'⟩ := by
  obtain ⟨hprogram, hoptions, -⟩ := Machine.new_eq_ok hm
  obtain ⟨n, ⟨index, s⟩, hafter, hend⟩ := (Machine.ends_iff_after hm).1 ⟨events, h⟩
  have hclean := Machine.clean_of_take (Machine.fits_of_after hm hafter) hend
  have hsteps : s'.steps = n := by
    rw [hclean.steps]
    exact Machine.steps_of_after hm hafter
  rw [hprogram, hoptions] at hclean
  rw [hsteps]
  exact ⟨index, s, hafter, hend, hclean⟩

/-- A checked difference that is negative, in a cell that the tape has grown for. -/
theorem failure_leaves_state_sub :
    ∃ m s' events, Machine.new [⟨.modify, 1⟩, ⟨.sub, 5⟩] { allowOverflows := false, chunkSize := 2 }
        {} {} = .ok m ∧
      m.Ends ⟨.failed (.cellOverflow 5 (-1) ⟨0, 1⟩), s', events⟩ ∧
      s'.tape.cells = #[1, 0, 0, 0, 0, 0] ∧
      ∃ index s, m.after s'.steps = some (index, s) ∧
        m.take (index, s) = .ended (.failed (.cellOverflow 5 (-1) ⟨0, 1⟩)) s' ∧
        Failure.Clean true (Batch.fetch? #[⟨.modify, 1⟩, ⟨.sub, 5⟩] index) index s
          ⟨.cellOverflow 5 (-1) ⟨0, 1⟩, s'⟩ := by
  have hm : ∃ m, Machine.new [⟨.modify, 1⟩, ⟨.sub, 5⟩] { allowOverflows := false, chunkSize := 2 }
    {} {} = .ok m := ⟨_, rfl⟩
  obtain ⟨m, hm⟩ := hm
  obtain ⟨hprogram, hoptions, -⟩ := Machine.new_eq_ok hm
  obtain ⟨_, hstate⟩ := Machine.state_of_new hm
  replace hstate : m.state = { tape := Tape.blank 2 (by decide), input := {}, output := {} } :=
    hstate
  have hengine : m.options.engine = .stepwise := by rw [hoptions]; rfl
  have hend : ∃ d s', Walk.after (Stepwise.next? m.program m.options) 1 (0, m.state) = some d ∧
      Stepwise.stop? m.program m.options d
        = some (.failed (.cellOverflow 5 (-1) ⟨0, 1⟩), s') ∧
      s'.tape.cells = #[1, 0, 0, 0, 0, 0] := by
    rw [hprogram, hoptions, hstate]
    exact ⟨_, _, rfl, rfl, rfl⟩
  obtain ⟨d, s', hafter, hstop, hcells⟩ := hend
  obtain ⟨events, h⟩ := (Machine.ends_iff hengine).2 ⟨1, d, hafter, hstop⟩
  exact ⟨m, s', events, hm, h, hcells, failure_leaves_state hm h⟩

end TapeLang
