import TapeLang.Proofs.Limits

/-!
# Checked cells

Checking results for being bytes only adds one reason to stop: an instruction does the same checked
or not, unless its exact result is no byte (`Stepwise.execute_checked`). So a checked run that does
not stop for a result is the unchecked one, and otherwise it stops where the unchecked run would
wrap a cell (`checked_adds_overflow`).
-/

set_option autoImplicit false

namespace TapeLang

/-- The exact result for a cell is no byte. -/
def Instruction.Overflows (i : Instruction) (v : View) (cell value : Int) : Prop :=
  i.result? v = some (cell, value) ∧ 0 ≤ cell ∧ ¬ isByte value

/-- Only three kinds of instructions compute a result. -/
theorem Instruction.kind_of_result? {i : Instruction} {v : View} {r : Int × Int}
    (h : i.result? v = some r) : i.kind ∈ [.modify, .add, .sub] := by
  unfold result? at h
  cases hkind : i.kind with
  | modify | add | sub => decide
  | _ =>
    rw [hkind] at h
    cases h

/-! ## Instructions -/

namespace State

variable {s : State} {index : Int}

theorem modify_checked (hs : s.Inside) {amount : Int}
    (h : isByte (s.view.cell.toNat + amount)) :
    s.modify true amount index = s.modify false amount index := by
  unfold modify
  rw [hs.get?_eq]
  simp [h]

theorem transfer_checked (hs : s.Inside) {sign distance : Int}
    (h : 0 ≤ s.pointer + distance → isByte (s.view.sum sign distance)) :
    s.transfer true sign distance index = s.transfer false sign distance index := by
  by_cases hneg : s.pointer + distance < 0
  · unfold transfer
    rw [if_pos hneg, if_pos hneg]
  · have h₀ := Int.not_lt.mp hneg
    cases hroom : s.tape.refusal? s.memory (s.pointer + distance) with
    | some error => simp only [transfer, if_neg hneg, reach_eq_error hroom]
    | none =>
      rw [transfer_of_nonneg hroom hs h₀, transfer_of_nonneg hroom hs h₀]
      simp [h h₀]

end State

namespace Stepwise

variable {s t : State} {index cell value : Int} {i : Instruction} {place : Place}

/-- **Checked or not, an instruction does the same**, unless its result is no byte. -/
theorem execute_checked (hs : s.Inside) (h : ∀ cell value, ¬ i.Overflows s.view cell value) :
    execute true i index s = execute false i index s := by
  have hbyte {cell value : Int} (hresult : i.result? s.view = some (cell, value)) (h₀ : 0 ≤ cell) :
      isByte value := by
    by_contra hnot
    exact h cell value ⟨hresult, h₀, hnot⟩
  obtain ⟨kind, arg⟩ := i
  cases kind with
  | modify =>
    unfold execute
    simp only [State.modify_checked hs (hbyte hs.result?_modify hs.1)]
  | add =>
    unfold execute
    simp only [State.transfer_checked hs (hbyte hs.result?_add)]
  | sub =>
    unfold execute
    simp only [State.transfer_checked hs (hbyte hs.result?_sub)]
  | _ => rfl

theorem execute_of_overflows (hs : s.Inside) (hroom : i.refusal? s = none)
    (h : i.Overflows s.view cell value) :
    execute true i index s = .failed (.cellOverflow cell value ⟨s.pointer, index⟩)
      { s with tape := s.tape.extend cell } :=
  execute_of_fails hs (.overflow hroom rfl h.1 h.2.1 h.2.2)

/-- An instruction that a checked run completes has a byte for its result. -/
theorem isByte_of_execute (hs : s.Inside) {index' : Int}
    (hresult : i.result? s.view = some (cell, value))
    (h : execute true i index s = .next index' t) : isByte value := by
  by_contra hbyte
  have hfails : ∃ f, i.Fails true index s f := by
    by_cases h₀ : 0 ≤ cell
    · exact ⟨_, .overflow (refusal?_of_execute h) rfl hresult h₀ hbyte⟩
    · rcases hs.cell_of_result? hresult with rfl | ⟨hkind, rfl⟩
      · exact absurd hs.1 h₀
      · exact ⟨_, .underflow hkind (Int.not_le.mp h₀)⟩
  obtain ⟨f, hfails⟩ := hfails
  rw [execute_of_fails hs hfails] at h
  cases h

/-! ## Moves -/

variable {program : Array Instruction} {options : Options} {c : Int × State}

/-- A checked engine makes the same of an instruction, unless it stops for the result. -/
theorem take_checked (hc : c.2.Inside)
    (h : ∀ cell value place s, take program { options with allowOverflows := false } c
      ≠ .ended (.failed (.cellOverflow cell value place)) s) :
    take program { options with allowOverflows := true } c
      = take program { options with allowOverflows := false } c := by
  have hlimit : limitReached? { options with allowOverflows := true } c.2
      = limitReached? { options with allowOverflows := false } c.2 := rfl
  unfold take at h ⊢
  simp only [step_eq_of_fetch?, hlimit] at h ⊢
  by_cases hsize : (program.size : Int) ≤ c.1
  · simp only [if_pos hsize]
  simp only [if_neg hsize] at h ⊢
  cases hreached : limitReached? { options with allowOverflows := false } c.2 with
  | some limit => rfl
  | none =>
    cases hi : Batch.fetch? program c.1 with
    | none => rfl
    | some i =>
      simp only [hreached, hi] at h ⊢
      refine congrArg Outcome.resumption ?_
      cases hroom : i.refusal? c.2 with
      | some error => rw [execute_of_refusal? hroom, execute_of_refusal? hroom]
      | none =>
        refine (execute_checked hc fun cell value hoverflows => ?_).symm
        apply h cell value _ _
        rw [show (!false) = true from rfl, execute_of_overflows hc hroom hoverflows]
        rfl

/-- Where a checked engine stops for a result, there is an instruction with such a result. -/
theorem overflows_of_take (hc : c.2.Inside)
    (h : take program { options with allowOverflows := false } c
      = .ended (.failed (.cellOverflow cell value place)) t) :
    place = ⟨c.2.pointer, c.1⟩ ∧ t = { c.2 with tape := c.2.tape.extend cell } ∧
      ∃ i, Batch.fetch? program c.1 = some i ∧ i.Overflows c.2.view cell value := by
  have hmoves := moves_take program { options with allowOverflows := false } hc
  rw [h] at hmoves
  generalize hending : Batch.Resumption.ended (.failed (.cellOverflow cell value place)) t = x
    at hmoves
  cases hmoves with
  | fails _ hi hfails =>
    cases hfails with
    | overflow _ _ hresult h₀ hbyte =>
      cases hending
      exact ⟨rfl, rfl, _, hi, hresult, h₀, hbyte⟩
    | _ => cases hending
  | _ => cases hending

end Stepwise

/-! ## Machines -/

/-- Options that are accepted for checked cells are accepted without, with any limit. -/
theorem Options.objection?_unchecked {options : Options}
    (h : objection? { options with allowOverflows := false } = none) (k : Nat) :
    objection? { options with allowOverflows := true, maxSteps := some (k : Int) } = none := by
  unfold objection? at h ⊢
  split at h
  · cases h
  · rename_i hname
    rw [if_neg hname, if_neg (by simp)]
    exact if_neg (by omega)

section
variable {program : Program} {options : Options} {input : Input} {output : Output}
  {memory : Memory} {m : Machine} {n : Nat} {c d : Int × State} {cell value : Int} {place : Place}
  {s : State}
  (hm : Machine.new program { options with allowOverflows := false } input output memory = .ok m)
include hm

/-- Only the stepwise engine checks cells. -/
theorem engine_of_checked : options.engine = .stepwise := by
  cases hengine : options.engine with
  | stepwise => rfl
  | batch =>
    have hwraps := Options.allowOverflows_of_batch (Machine.objection?_of_new hm) hengine
    cases hwraps

namespace Machine

theorem take_of_checked :
    m.take = Stepwise.take program.toArray { options with allowOverflows := false } :=
  take_of_new hm (engine_of_checked hm)

/-- An unchecked run comes by wherever a checked one does, up to its own step limit. -/
theorem after_of_checked {limit : Option Int} {m' : Machine}
    (hm' : Machine.new program { options with allowOverflows := true, maxSteps := limit } input
      output memory = .ok m')
    (hlimit : ∀ c : Int × State, c.2.steps < n →
      Stepwise.limitReached? { options with allowOverflows := false } c.2 = none →
      Stepwise.limitReached? { options with allowOverflows := true, maxSteps := limit } c.2 = none)
    (h : m.after n = some d) : m'.after n = some d := by
  have hengine : options.engine = .stepwise := engine_of_checked hm
  have htake := take_of_checked hm
  have htake' := take_of_new hm' hengine
  have hstate : m'.state = m.state := state_eq_of_new hm hm' rfl
  unfold after
  rw [hstate]
  refine Walk.after_congr counts_take (fits_of_new hm) (k := n) ?_ h ?_
  · intro c index s hfits hlt hmove
    rw [htake] at hmove
    have hopen : Stepwise.limitReached? { options with allowOverflows := false } c.2 = none :=
      Stepwise.limitReached?_of_next? (Stepwise.next?_of_step (Stepwise.take_eq_resume_iff.1 hmove))
    have hunchecked : Stepwise.take program.toArray { options with allowOverflows := true } c
        = .resume index s := by
      rw [Stepwise.take_checked hfits.inside (fun _ _ _ _ => by rw [hmove]; simp), hmove]
    rw [htake', ← hunchecked]
    exact Stepwise.take_of_open hopen (hlimit c hlt hopen) rfl
  · exact Nat.le_of_eq (steps_of_after hm h)

/-- No instruction that a checked run completes has a result to wrap. -/
theorem isByte_of_after {i : Instruction} (hc : m.after n = some c) (hd : m.after (n + 1) = some d)
    (hi : Batch.fetch? program.toArray c.1 = some i)
    (hresult : i.result? c.2.view = some (cell, value)) : isByte value := by
  have hfits := fits_of_after hm hc
  unfold after at hc hd
  rw [Walk.after_succ_last hc, Walk.next?_eq_some_iff, take_of_checked hm,
    Stepwise.take_eq_resume_iff] at hd
  have hopen := Stepwise.limitReached?_of_next? (Stepwise.next?_of_step hd)
  rw [Batch.step_of_fetch? hi hopen] at hd
  exact Stepwise.isByte_of_execute hfits.inside hresult hd

section
variable {m' : Machine}
  (hm' : Machine.new program { options with allowOverflows := true } input output memory = .ok m')
include hm'

/-- Any other end of a checked run is one of the unchecked run. -/
theorem ends_of_checked {ending : Ending} {events : Array Event} (h : m.Ends ⟨ending, s, events⟩)
    (hother : ∀ cell value place, ending ≠ .failed (.cellOverflow cell value place)) :
    ∃ events', m'.Ends ⟨ending, s, events'⟩ := by
  have hengine : options.engine = .stepwise := engine_of_checked hm
  obtain ⟨n, d, hd, hend⟩ := (ends_iff_after hm).1 ⟨events, h⟩
  refine (ends_iff_after hm').2 ⟨n, d, after_of_checked hm hm' (fun _ _ hopen => hopen) hd, ?_⟩
  rw [take_of_checked hm] at hend
  rw [take_of_new hm' hengine, Stepwise.take_checked (fits_of_after hm hd).inside, hend]
  intro cell value place t hoverflow
  rw [hend] at hoverflow
  cases hoverflow
  exact hother cell value place rfl

/-- What a checked run raises, the unchecked run does, if it says that it is not about a result. -/
theorem raises_of_checked {raised : Raised} (h : m.Raises raised s)
    (hwritten : raised ≠ .notWritten)
    (hother : ∀ cell value place, raised ≠ .error (.cellOverflow cell value place)) :
    m'.Raises raised s := by
  obtain ⟨error, events, hends, rfl⟩ := h
  cases hraised : error.raised with
  | notWritten => exact absurd hraised hwritten
  | error error' =>
    obtain ⟨rfl, -⟩ := RunError.raised_eq_error_iff.1 hraised
    rw [hraised] at hother
    obtain ⟨events', hends'⟩ := ends_of_checked hm hm' hends (by simpa using hother)
    exact ⟨error, events', hends', hraised⟩

/-- A checked run that does not end is the unchecked run. -/
theorem endless_of_checked (h : ¬ ∃ rep, m.Ends rep) : ¬ ∃ rep, m'.Ends rep := by
  rintro ⟨⟨ending, s, events⟩, hends⟩
  obtain ⟨n, hend⟩ := (ends_iff_walk (fits_of_new hm')).1 ⟨events, hends⟩
  rcases Walk.ends_or_after m.take (n + 1) (0, m.state) with ⟨k, ending, s, -, hend'⟩ | ⟨d, hd⟩
  · obtain ⟨events, hends⟩ := (ends_iff_walk (fits_of_new hm)).2 ⟨k, hend'⟩
    exact h ⟨_, hends⟩
  · have hsome : m'.after (n + 1) = some d :=
      after_of_checked hm hm' (fun _ _ hopen => hopen) hd
    exact absurd (hend.le_of_after hsome) (Nat.not_succ_le_self n)

end

/-- Where a checked run stops for a result, the unchecked run is about to wrap it. -/
theorem stops_of_checked {events : Array Event}
    (h : m.Ends ⟨.failed (.cellOverflow cell value place), s, events⟩) :
    ∃ m'' t events', Machine.new program
        { options with allowOverflows := true, maxSteps := some (s.steps : Int) } input output
        memory = .ok m'' ∧
      m''.Ends ⟨.failed (.stepLimit s.steps place), t, events'⟩ ∧
      m''.Raises (if Integer.isWritable s.steps ∧ Integer.isWritable place.index
        then .error (.stepLimit s.steps place) else .notWritten) t ∧
      t.SameResults s ∧ t.steps = s.steps ∧
      ∃ i, Batch.fetch? program.toArray place.index = some i ∧
        i.kind ∈ [.modify, .add, .sub] ∧ i.Overflows t.view cell value := by
  have hengine : options.engine = .stepwise := engine_of_checked hm
  obtain ⟨n, ⟨index, t⟩, hd, hend⟩ := (ends_iff_after hm).1 ⟨events, h⟩
  have hsteps : t.steps = n := steps_of_after hm hd
  have hs : t.Inside := (fits_of_after hm hd).inside
  rw [take_of_checked hm] at hend
  obtain ⟨rfl, rfl, i, hi, hoverflows⟩ := Stepwise.overflows_of_take hs hend
  have hobjection := Options.objection?_unchecked (Machine.objection?_of_new hm) t.steps
  obtain ⟨m'', hm''⟩ := Machine.exists_new_of_options hm hobjection rfl
  have hafter : m''.after n = some (index, t) :=
    after_of_checked hm hm'' (fun c hlt _ => if_neg (by omega)) hd
  have hstop : m''.take (index, t)
      = .ended (.failed (.stepLimit t.steps ⟨t.pointer, index⟩)) t := by
    rw [take_of_new hm'' hengine]
    exact Stepwise.take_of_limit (Batch.lt_size_of_fetch? hi).1 (if_pos (Int.le_refl _))
  obtain ⟨events', hends⟩ := (ends_iff_after hm'').2 ⟨n, _, hafter, hstop⟩
  have hresults : t.SameResults { t with tape := t.tape.extend cell } :=
    ⟨rfl, rfl, Tape.nonzero_congr fun place => (Tape.get_extend cell).symm, rfl⟩
  refine ⟨m'', t, events', hm'', hends, ⟨_, events', hends, ?_⟩, hresults, rfl, i, hi,
    Instruction.kind_of_result? hoverflows.1, hoverflows⟩
  simp [RunError.raised, RunError.numbers]

end Machine

end

/-- **Checked cells only add the stop for results that are no bytes**: whatever else a checked run
ends with, the unchecked run ends with, in the same state, and the latter runs on for ever if the
former does. So what a checked run raises the unchecked run does, unless it is the error of such a
result or says nothing for a number in the message that cannot be written. Where a checked run stops
for a result, the unchecked run has come as far and is about to wrap it. No instruction that a
checked run completes has a result to wrap. -/
theorem checked_adds_overflow {program : Program} {options : Options} {input : Input}
    {output : Output} {memory : Memory} {m m' : Machine}
    (hm : Machine.new program { options with allowOverflows := false } input output memory = .ok m)
    (hm' : Machine.new program { options with allowOverflows := true } input output memory
      = .ok m') :
    (∀ ending s events, m.Ends ⟨ending, s, events⟩ →
      (∀ cell value place, ending ≠ .failed (.cellOverflow cell value place)) →
      ∃ events', m'.Ends ⟨ending, s, events'⟩) ∧
    (∀ raised s, m.Raises raised s → raised ≠ .notWritten →
      (∀ cell value place, raised ≠ .error (.cellOverflow cell value place)) →
      m'.Raises raised s) ∧
    ((¬ ∃ rep, m.Ends rep) → ¬ ∃ rep, m'.Ends rep) ∧
    (∀ cell value place s events, m.Ends ⟨.failed (.cellOverflow cell value place), s, events⟩ →
      ∃ m'' t events', Machine.new program
          { options with allowOverflows := true, maxSteps := some (s.steps : Int) } input output
          memory = .ok m'' ∧
        m''.Ends ⟨.failed (.stepLimit s.steps place), t, events'⟩ ∧
        m''.Raises (if Integer.isWritable s.steps ∧ Integer.isWritable place.index
          then .error (.stepLimit s.steps place) else .notWritten) t ∧
        t.SameResults s ∧ t.steps = s.steps ∧
        ∃ i, Batch.fetch? program.toArray place.index = some i ∧
          i.kind ∈ [.modify, .add, .sub] ∧ i.Overflows t.view cell value) ∧
    ∀ n c d i cell value, m.after n = some c → m.after (n + 1) = some d →
      Batch.fetch? program.toArray c.1 = some i → i.result? c.2.view = some (cell, value) →
      isByte value := by
  refine ⟨?other, ?raised, ?endless, ?stops, ?bytes⟩
  case other =>
    intro ending s events h hother
    exact Machine.ends_of_checked hm hm' h hother
  case raised =>
    intro raised s h hwritten hother
    exact Machine.raises_of_checked hm hm' h hwritten hother
  case endless => exact Machine.endless_of_checked hm hm'
  case stops =>
    intro cell value place s events h
    exact Machine.stops_of_checked hm h
  case bytes =>
    intro n c d i cell value hc hd hi hresult
    exact Machine.isByte_of_after hm hc hd hi hresult

/-- A cell that is printed before it overflows. -/
theorem checked_adds_overflow_print :
    ∃ m m' s events, Machine.new [⟨.modify, 255⟩, ⟨.print, 1⟩, ⟨.modify, 1⟩]
        { allowOverflows := false, chunkSize := 2 } {} {} = .ok m ∧
      Machine.new [⟨.modify, 255⟩, ⟨.print, 1⟩, ⟨.modify, 1⟩] { chunkSize := 2 } {} {} = .ok m' ∧
      m.Ends ⟨.failed (.cellOverflow 0 256 ⟨0, 2⟩), s, events⟩ ∧ s.output.written = #[255] ∧
      ∃ m'' t, Machine.new [⟨.modify, 255⟩, ⟨.print, 1⟩, ⟨.modify, 1⟩]
          { maxSteps := some 2, chunkSize := 2 } {} {} = .ok m'' ∧
        m''.Raises (.error (.stepLimit 2 ⟨0, 2⟩)) t ∧ t.SameResults s ∧ t.steps = 2 ∧
        ∃ i, Batch.fetch? #[⟨.modify, 255⟩, ⟨.print, 1⟩, ⟨.modify, 1⟩] 2 = some i ∧
          i.kind ∈ [.modify, .add, .sub] ∧ i.Overflows t.view 0 256 := by
  have hm : ∃ m s events, Machine.new [⟨.modify, 255⟩, ⟨.print, 1⟩, ⟨.modify, 1⟩]
      { allowOverflows := false, chunkSize := 2 } {} {} = .ok m ∧
    m.runFor 3 = ⟨.failed (.cellOverflow 0 256 ⟨0, 2⟩), s, events⟩ ∧
    s.output.written = #[255] ∧ s.steps = 2 := ⟨_, _, _, rfl, rfl, rfl, rfl⟩
  have hm' : ∃ m, Machine.new [⟨.modify, 255⟩, ⟨.print, 1⟩, ⟨.modify, 1⟩] { chunkSize := 2 } {} {}
    = .ok m := ⟨_, rfl⟩
  obtain ⟨m, s, events, hm, hrun, hwritten, hsteps⟩ := hm
  obtain ⟨m', hm'⟩ := hm'
  have hends : m.Ends ⟨.failed (.cellOverflow 0 256 ⟨0, 2⟩), s, events⟩ :=
    ⟨3, hrun, Ending.isFinal_failed _⟩
  obtain ⟨-, -, -, hstops, -⟩ := @checked_adds_overflow _ { chunkSize := 2 } _ _ _ m m' hm hm'
  obtain ⟨m'', t, _, hm'', -, hraises, hsame, hcount, hresult⟩ := hstops _ _ _ _ _ hends
  rw [hsteps] at hm'' hraises hcount
  rw [if_pos ⟨by decide +kernel, by decide +kernel⟩] at hraises
  exact ⟨m, m', s, events, hm, hm', hends, hwritten, m'', t, hm'', hraises, hsame, hcount, hresult⟩

/-- A checked run may raise something else than the error of its result, as the result has too many
digits for the message. -/
theorem not_forall_checked_raises :
    ¬ ∀ (program : Program) (m m' : Machine) (raised : Raised) (s : State),
      Machine.new program { allowOverflows := false, chunkSize := 2 } {} {} = .ok m →
      Machine.new program { chunkSize := 2 } {} {} = .ok m' → m.Raises raised s →
      (∀ cell value place, raised ≠ .error (.cellOverflow cell value place)) →
      m'.Raises raised s := by
  intro h
  have hm : ∃ m, Machine.new [⟨.modify, Integer.tooLong⟩]
    { allowOverflows := false, chunkSize := 2 } {} {} = .ok m := ⟨_, rfl⟩
  have hm' : ∃ m' rep, Machine.new [⟨.modify, Integer.tooLong⟩] { chunkSize := 2 } {} {} = .ok m' ∧
    m'.runFor 2 = rep ∧ rep.ending = .completed := ⟨_, _, rfl, rfl, rfl⟩
  obtain ⟨m, hm⟩ := hm
  obtain ⟨m', rep, hm', hrun, hdone⟩ := hm'
  obtain ⟨-, -, hs, -, hview⟩ := Machine.new_eq_ok hm
  have hresult : Instruction.Overflows ⟨.modify, Integer.tooLong⟩ m.state.view 0
      Integer.tooLong := by
    refine ⟨?_, Int.le_refl 0, fun hbyte => ?_⟩
    · simp [hview, Instruction.result?, View.cell]
    · have hlarge := Integer.le_tooLong
      rw [isByte_iff] at hbyte
      omega
  have hstop : m.take (0, m.state)
      = .ended (.failed (.cellOverflow 0 Integer.tooLong ⟨m.state.pointer, 0⟩))
        { m.state with tape := m.state.tape.extend 0 } := by
    have hstep : Stepwise.step #[⟨.modify, Integer.tooLong⟩]
          { allowOverflows := false, chunkSize := 2 } 0 m.state
        = Stepwise.execute true ⟨.modify, Integer.tooLong⟩ 0 m.state :=
      Stepwise.step_of_getElem? (j := 0) rfl rfl
    rw [Stepwise.execute_of_overflows hs rfl hresult] at hstep
    rw [Machine.take_of_new hm rfl]
    exact congrArg Stepwise.Outcome.resumption hstep
  obtain ⟨events, hends⟩ := (Machine.ends_iff_after hm).2 ⟨0, _, rfl, hstop⟩
  have hraises : m.Raises .notWritten { m.state with tape := m.state.tape.extend 0 } := by
    refine ⟨_, events, hends, ?_⟩
    simp [RunError.raised, RunError.numbers, Integer.isWritable_tooLong]
  obtain ⟨error, events', hends', -⟩ := h _ m m' _ _ hm hm' hraises (by simp)
  have hends'' : m'.Ends rep := ⟨2, hrun, hdone ▸ Ending.isFinal_completed⟩
  obtain ⟨hsame, -⟩ := Machine.ends_unique hm' hends'' hends'
  rw [hdone] at hsame
  cases hsame

end TapeLang
