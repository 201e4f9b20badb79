import TapeLang.Machine.Run
import TapeLang.Proofs.Platform
import TapeLang.Tape.Lemmas

/-!
# The stepwise engine as a platform

A state whose pointer is on a cell shows a view, and executing an instruction does to the view what
`View.act` says, if there is room for the tape that it needs (`execute_of_act`); where the view has
no next one, the execution fails (`execute_of_act_eq_none`). So the stepwise engine, with no step
limit and in a memory without bounds, is a platform.
-/

set_option autoImplicit false

namespace TapeLang

namespace State

/-- What can be told of the state from outside. -/
def view (s : State) : View := ⟨fun place => s.tape.get place, s.pointer.toNat, s.input, s.output⟩

/-- The pointer is on a cell. -/
def Inside (s : State) : Prop := 0 ≤ s.pointer ∧ s.pointer < s.tape.size

variable {s : State} {checked : Bool}

/-! ## Cells -/

theorem view_set {place : Nat} (h : place < s.tape.size) (value : UInt8) :
    view { s with tape := s.tape.set place value } = s.view.put place value := by
  simp only [view, View.put, View.mk.injEq, and_true]
  funext k
  rw [Tape.get_set value h, Function.update_apply]

theorem view_extend (index : Int) : view { s with tape := s.tape.extend index } = s.view := by
  simp only [view, View.mk.injEq, and_true]
  funext place
  exact Tape.get_extend index

namespace Inside

theorem pointer_eq (h : s.Inside) : s.pointer = (s.view.pointer : Int) :=
  (Int.toNat_of_nonneg h.1).symm

theorem lt_size (h : s.Inside) : s.view.pointer < s.tape.size := by
  have := h.pointer_eq
  have := h.2
  omega

theorem get?_eq (h : s.Inside) : s.tape.get? s.pointer = some s.view.cell := by
  rw [h.pointer_eq]
  exact Tape.get?_of_lt h.lt_size

theorem view_set (h : s.Inside) (value : UInt8) :
    State.view { s with tape := s.tape.set s.pointer value }
      = s.view.put s.view.pointer value := by
  have hview := State.view_set h.lt_size value
  rw [← h.pointer_eq] at hview
  exact hview

theorem set (h : s.Inside) (index : Int) (value : UInt8) :
    State.Inside { s with tape := s.tape.set index value } := by
  refine ⟨h.1, ?_⟩
  show s.pointer < ((s.tape.set index value).size : Int)
  rw [Tape.size_set]
  exact h.2

theorem extend (h : s.Inside) (index : Int) :
    State.Inside { s with tape := s.tape.extend index } := by
  have hsize := s.tape.size_le_extend index
  refine ⟨h.1, ?_⟩
  show s.pointer < ((s.tape.extend index).size : Int)
  have := h.2
  omega

end Inside

/-- The pointer is on a cell, and there is room for as many more as may be needed. -/
structure Ample (s : State) : Prop where
  inside : s.Inside
  unlimited : s.memory = .unlimited

/-! ## Room -/

variable {target : Int}

theorem reach_eq_ok (h : s.tape.refusal? s.memory target = none) :
    s.reach target = .ok { s with tape := s.tape.extend target } := by
  rw [reach, Tape.ensure_eq_ok h]

theorem reach_of_lt (h : target < s.tape.size) : s.reach target = .ok s := by
  rw [reach_eq_ok (s.tape.refusal?_of_lt target s.memory h), s.tape.extend_of_lt target h]

theorem reach_eq_error {error : RoomError} (h : s.tape.refusal? s.memory target = some error) :
    s.reach target = .error ⟨.noRoom error, s⟩ := by
  rw [reach, Tape.ensure_eq_error h]

/-- The tape grows, or nothing changes. -/
theorem reach_cases (s : State) (target : Int) :
    s.reach target = .ok { s with tape := s.tape.extend target } ∨
      ∃ error, s.reach target = .error ⟨.noRoom error, s⟩ := by
  cases h : s.tape.refusal? s.memory target with
  | none => exact .inl (reach_eq_ok h)
  | some error => exact .inr ⟨error, reach_eq_error h⟩

end State

/-- The error says that a memory has no room for some number of cells. Without bounds there is no
such error. -/
def RunError.WantsRoom (memory : Memory) (error : RunError) : Prop :=
  ∃ reason, error = .noRoom reason ∧ memory.refusal? reason.cells = some reason

theorem RunError.WantsRoom.ne_unlimited {memory : Memory} {error : RunError}
    (h : error.WantsRoom memory) : memory ≠ .unlimited := by
  rintro rfl
  obtain ⟨reason, -, hrefusal⟩ := h
  cases hrefusal

/-- The kinds that need a cell at the argument's distance. -/
def Kind.hasTarget : Kind → Bool
  | shift | add | sub => true
  | _ => false

/-- The index of the cell that an instruction needs besides the current one. -/
def Instruction.target? (i : Instruction) (s : State) : Option Int :=
  if i.kind.hasTarget then some (s.pointer + i.arg) else none

/-- Why there is no room for the tape that an instruction needs, if there is none. -/
def Instruction.refusal? (i : Instruction) (s : State) : Option RoomError :=
  (i.target? s).bind (s.tape.refusal? s.memory)

theorem Instruction.refusal?_of_hasTarget {i : Instruction} (h : i.kind.hasTarget) (s : State) :
    i.refusal? s = s.tape.refusal? s.memory (s.pointer + i.arg) := by
  rw [refusal?, target?, if_pos h, Option.bind_some]

theorem State.Ample.refusal?_eq_none {s : State} (h : s.Ample) (i : Instruction) :
    i.refusal? s = none := by
  rw [Instruction.refusal?, h.unlimited]
  cases i.target? s <;> simp

/-! ## Effects -/

/-- An effect has led to a state that shows the view, or failed where there is none. -/
def Agrees : Except Failure State → Option View → Prop
  | .ok s, some v => s.Inside ∧ s.view = v
  | .error _, none => True
  | _, _ => False

namespace State

variable {s : State} {checked : Bool} {index : Int}

theorem agrees_store (hs : s.Inside) (value : UInt8) :
    Agrees (s.store value) (some (s.view.put s.view.pointer value)) := by
  unfold store
  rw [hs.get?_eq]
  exact ⟨hs.set _ value, hs.view_set value⟩

theorem agrees_modify (hs : s.Inside) (amount : Int) :
    Agrees (s.modify checked amount index)
      (s.view.write checked s.view.pointer (s.view.cell.toNat + amount)) := by
  unfold modify View.write
  rw [hs.get?_eq]
  simp only
  split
  · trivial
  · exact ⟨hs.set _ _, hs.view_set _⟩

theorem agrees_shift (hs : s.Inside) {distance : Int}
    (hroom : s.tape.refusal? s.memory (s.pointer + distance) = none) :
    Agrees (s.shift distance index) (s.view.shift distance) := by
  unfold shift View.shift
  rw [← hs.pointer_eq]
  simp only [reach_eq_ok hroom]
  split
  · trivial
  · rename_i h
    refine ⟨⟨Int.not_lt.mp h, s.tape.lt_size_extend _⟩, ?_⟩
    have hview := s.view_extend (s.pointer + distance)
    simp only [view, View.mk.injEq, and_true] at hview ⊢
    exact hview

theorem agrees_transfer (hs : s.Inside) (sign : Int) {distance : Int}
    (hroom : s.tape.refusal? s.memory (s.pointer + distance) = none) :
    Agrees (s.transfer checked sign distance index) (s.view.transfer checked sign distance) := by
  unfold transfer View.transfer
  rw [← hs.pointer_eq]
  simp only [reach_eq_ok hroom]
  by_cases h : s.pointer + distance < 0
  · rw [if_pos h, if_pos h]
    trivial
  · rw [if_neg h, if_neg h]
    obtain ⟨place, hplace⟩ := Int.eq_ofNat_of_zero_le (Int.not_lt.mp h)
    have hs₁ := hs.extend place
    have hview := s.view_extend place
    have hsize : place < (s.tape.extend place).size :=
      Int.ofNat_lt.mp (s.tape.lt_size_extend place)
    have hcell := hs₁.get?_eq
    have hget : (s.tape.extend place).get place = s.view.cells place := Tape.get_extend _
    rw [hview] at hcell
    simp only [hplace, hcell, hget, Int.toNat_natCast, View.write]
    split
    · trivial
    · have hput := view_set (s := { s with tape := s.tape.extend place }) hsize
        (byteOf ((s.view.cells place).toNat + sign * s.view.cell.toNat))
      have hs₂ := hs₁.set place (byteOf ((s.view.cells place).toNat + sign * s.view.cell.toNat))
      refine ⟨hs₂.set _ _, ?_⟩
      rw [hs₂.view_set 0, hput, hview]
      rfl

theorem agrees_print (hs : s.Inside) (count : Int) :
    Agrees (s.print count) (s.view.print count) := by
  unfold print View.print
  rw [hs.get?_eq, show s.view.output = s.output from rfl]
  simp only
  split
  · exact ⟨hs, rfl⟩
  · trivial

theorem agrees_scan (hs : s.Inside) : Agrees (s.scan index) s.view.scan := by
  unfold scan View.scan
  rw [show s.view.input = s.input from rfl]
  cases s.input.read? with
  | none => trivial
  | some read =>
    obtain ⟨byte, input⟩ := read
    cases byte with
    | none => trivial
    | some byte => exact agrees_store (s := { s with input }) hs byte

/-! ## What no effect changes -/

/-- The step counter and the memory are the same. -/
structure Keeps (t s : State) : Prop where
  steps : t.steps = s.steps
  memory : t.memory = s.memory

variable {t : State}

theorem keeps_store {value : UInt8} (h : s.store value = .ok t) : t.Keeps s := by
  unfold store at h
  split at h <;> cases h
  exact ⟨rfl, rfl⟩

theorem keeps_modify {amount : Int} (h : s.modify checked amount index = .ok t) : t.Keeps s := by
  unfold modify at h
  simp only at h
  split at h
  · cases h
  · split at h <;> cases h
    exact ⟨rfl, rfl⟩

theorem keeps_reach {target : Int} (h : s.reach target = .ok t) : t.Keeps s := by
  unfold reach at h
  split at h <;> cases h
  exact ⟨rfl, rfl⟩

theorem keeps_shift {distance : Int} (h : s.shift distance index = .ok t) : t.Keeps s := by
  unfold shift at h
  simp only at h
  split at h
  · cases h
  · split at h <;> cases h
    rename_i hreach
    exact ⟨(keeps_reach hreach).steps, (keeps_reach hreach).memory⟩

theorem keeps_transfer {sign distance : Int} (h : s.transfer checked sign distance index = .ok t) :
    t.Keeps s := by
  unfold transfer at h
  simp only at h
  split at h
  · cases h
  · split at h
    · cases h
    · rename_i hreach
      split at h
      · cases h
      · split at h <;> cases h
        exact ⟨(keeps_reach hreach).steps, (keeps_reach hreach).memory⟩

theorem keeps_print {count : Int} (h : s.print count = .ok t) : t.Keeps s := by
  unfold print at h
  simp only at h
  split at h
  · cases h
  · split at h <;> cases h
    exact ⟨rfl, rfl⟩

theorem keeps_scan (h : s.scan index = .ok t) : t.Keeps s := by
  unfold scan at h
  split at h
  · cases h
  · cases h
  · rename_i byte input hread
    have hstore := keeps_store (s := { s with input }) h
    exact ⟨hstore.steps, hstore.memory⟩

end State

namespace Stepwise

variable {s : State} {checked : Bool} {index : Int} {i : Instruction}

/-- An instruction that needs a longer tape than there is room for does nothing. -/
theorem execute_of_refusal? {error : RoomError} (h : i.refusal? s = some error) :
    execute checked i index s = .failed (.noRoom error) s := by
  obtain ⟨kind, arg⟩ := i
  have hrefused (hkind : kind.hasTarget) :
      s.tape.refusal? s.memory (s.pointer + arg) = some error := by
    rwa [Instruction.refusal?_of_hasTarget hkind] at h
  have hnonneg (hkind : kind.hasTarget) : ¬ s.pointer + arg < 0 := by
    intro hneg
    have hroom := s.tape.refusal?_of_lt (s.pointer + arg) s.memory (by omega)
    rw [hrefused hkind] at hroom
    cases hroom
  have htransfer (sign : Int) (hkind : kind.hasTarget) :
      s.transfer checked sign arg index = .error ⟨.noRoom error, s⟩ := by
    simp only [State.transfer, if_neg (hnonneg hkind), State.reach_eq_error (hrefused hkind)]
  cases kind with
  | shift =>
    simp only [execute, State.shift, if_neg (hnonneg rfl), State.reach_eq_error (hrefused rfl)]
    rfl
  | add => simp only [execute, htransfer 1 rfl, goOn]
  | sub => simp only [execute, htransfer (-1) rfl, goOn]
  | _ => cases h

variable (checked index) in
/-- The effect of an instruction that is no jump, if there is room for it. -/
theorem execute_eq_goOn (hi : i.kind.isLoop = false) (hs : s.Inside) (hroom : i.refusal? s = none) :
    ∃ effect, execute checked i index s = goOn (index + 1) effect ∧
      Agrees effect (s.view.act checked i) := by
  obtain ⟨kind, arg⟩ := i
  cases kind with
  | modify => exact ⟨_, rfl, State.agrees_modify hs arg⟩
  | shift => exact ⟨_, rfl, State.agrees_shift hs hroom⟩
  | print => exact ⟨_, rfl, State.agrees_print hs arg⟩
  | scan => exact ⟨_, rfl, State.agrees_scan hs⟩
  | clear => exact ⟨_, rfl, State.agrees_store hs 0⟩
  | add => exact ⟨_, rfl, State.agrees_transfer hs 1 hroom⟩
  | sub => exact ⟨_, rfl, State.agrees_transfer hs (-1) hroom⟩
  | beginLoop => cases hi
  | endLoop => cases hi

variable (index) in
theorem execute_of_act {w : View} (hi : i.kind.isLoop = false) (hs : s.Inside)
    (hroom : i.refusal? s = none) (h : s.view.act checked i = some w) :
    ∃ s', execute checked i index s = .next (index + 1) s' ∧ s'.Inside ∧ s'.view = w := by
  obtain ⟨effect, hexec, hagrees⟩ := execute_eq_goOn checked index hi hs hroom
  rw [h] at hagrees
  cases effect with
  | error failure => exact hagrees.elim
  | ok s' => exact ⟨s'.tick, hexec, hagrees⟩

variable (index) in
theorem execute_of_act_eq_none (hi : i.kind.isLoop = false) (hs : s.Inside)
    (h : s.view.act checked i = none) :
    ∃ error s', execute checked i index s = .failed error s' := by
  cases hroom : i.refusal? s with
  | some error => exact ⟨.noRoom error, s, execute_of_refusal? hroom⟩
  | none =>
    obtain ⟨effect, hexec, hagrees⟩ := execute_eq_goOn checked index hi hs hroom
    rw [h] at hagrees
    cases effect with
    | error failure => exact ⟨failure.error, failure.state, hexec⟩
    | ok s' => exact hagrees.elim

/-- An instruction that leads on has had room. -/
theorem refusal?_of_execute {index' : Int} {s' : State}
    (h : execute checked i index s = .next index' s') : i.refusal? s = none := by
  cases hroom : i.refusal? s with
  | none => rfl
  | some error =>
    rw [execute_of_refusal? hroom] at h
    cases h

/-- An instruction that is no jump goes on to the next one, if it has acted on the view. -/
theorem act_of_execute {index' : Int} {s' : State} (hi : i.kind.isLoop = false) (hs : s.Inside)
    (h : execute checked i index s = .next index' s') :
    s.view.act checked i = some s'.view ∧ s'.Inside ∧ index' = index + 1 := by
  cases hact : s.view.act checked i with
  | none =>
    obtain ⟨error, t, hfailed⟩ := execute_of_act_eq_none index hi hs hact
    rw [h] at hfailed
    cases hfailed
  | some w =>
    obtain ⟨t, hnext, ht, rfl⟩ := execute_of_act index hi hs (refusal?_of_execute h) hact
    rw [h] at hnext
    cases hnext
    exact ⟨rfl, ht, rfl⟩

theorem execute_beginLoop (hs : s.Inside) (arg : Int) :
    execute checked ⟨.beginLoop, arg⟩ index s
      = .next ((if s.view.cell = 0 then index + arg else index) + 1) s.tick := by
  show branch true (index + arg) index s = _
  unfold branch
  rw [hs.get?_eq]
  simp

theorem execute_endLoop (hs : s.Inside) (arg : Int) :
    execute checked ⟨.endLoop, arg⟩ index s
      = .next ((if s.view.cell = 0 then index else index - arg) + 1) s.tick := by
  show branch false (index - arg) index s = _
  unfold branch
  rw [hs.get?_eq]
  by_cases h : s.view.cell = 0 <;> simp [h]

/-- From the begin of a loop that ends at `k`, the run goes on behind that end on a zero cell. -/
theorem execute_begin (hs : s.Inside) (j k : Nat) :
    execute checked ⟨.beginLoop, k - j⟩ j s
      = .next ((if s.view.cell = 0 then k else j : Nat) + 1 : Nat) s.tick := by
  rw [execute_beginLoop hs]
  congr 1
  split <;> push_cast <;> omega

/-- From the end of a loop that begins at `j`, the run goes on in the loop on a cell that is not
zero. -/
theorem execute_end (hs : s.Inside) (j k : Nat) :
    execute checked ⟨.endLoop, k - j⟩ k s
      = .next ((if s.view.cell = 0 then k else j : Nat) + 1 : Nat) s.tick := by
  rw [execute_endLoop hs]
  congr 1
  split <;> push_cast <;> omega

/-! ## What no instruction changes but by counting -/

theorem kept_of_goOn {index' : Int} {effect : Except Failure State} {s' : State}
    (h : goOn index effect = .next index' s') (heffect : ∀ t, effect = .ok t → t.Keeps s) :
    s'.steps = s.steps + 1 ∧ s'.memory = s.memory := by
  cases effect with
  | error failure => cases h
  | ok t =>
    cases h
    exact ⟨congrArg (· + 1) (heffect t rfl).steps, (heffect t rfl).memory⟩

theorem kept_of_branch {onZero : Bool} {target index' : Int} {s' : State}
    (h : branch onZero target index s = .next index' s') :
    s'.steps = s.steps + 1 ∧ s'.memory = s.memory := by
  unfold branch at h
  split at h <;> cases h
  exact ⟨rfl, rfl⟩

theorem kept_of_execute {index' : Int} {s' : State}
    (h : execute checked i index s = .next index' s') :
    s'.steps = s.steps + 1 ∧ s'.memory = s.memory := by
  obtain ⟨kind, arg⟩ := i
  cases kind with
  | modify => exact kept_of_goOn h fun _ => State.keeps_modify
  | shift => exact kept_of_goOn h fun _ => State.keeps_shift
  | print => exact kept_of_goOn h fun _ => State.keeps_print
  | scan => exact kept_of_goOn h fun _ => State.keeps_scan
  | beginLoop => exact kept_of_branch h
  | endLoop => exact kept_of_branch h
  | clear => exact kept_of_goOn h fun _ => State.keeps_store
  | add => exact kept_of_goOn h fun _ => State.keeps_transfer
  | sub => exact kept_of_goOn h fun _ => State.keeps_transfer

theorem steps_of_execute {index' : Int} {s' : State}
    (h : execute checked i index s = .next index' s') : s'.steps = s.steps + 1 :=
  (kept_of_execute h).1

theorem memory_of_execute {index' : Int} {s' : State}
    (h : execute checked i index s = .next index' s') : s'.memory = s.memory :=
  (kept_of_execute h).2

/-! ## Steps -/

variable {program : Array Instruction} {options : Options}

theorem maxSteps_of_limitReached? {limit : Int} (h : limitReached? options s = some limit) :
    options.maxSteps = some limit := by
  unfold limitReached? at h
  split at h
  · split at h <;> cases h
    assumption
  · cases h

theorem step_eq_execute (hlimit : limitReached? options s = none) {j : Nat}
    (hi : program[j]? = some i) :
    step program options j s = execute (!options.allowOverflows) i j s := by
  obtain ⟨hj, -⟩ := Array.getElem?_eq_some_iff.1 hi
  unfold step
  rw [if_neg (by omega), hlimit]
  simp only [resolve?_of_nonneg (Int.natCast_nonneg j) (Int.ofNat_lt.mpr hj), Int.toNat_natCast, hi]

theorem step_of_limitReached? {limit : Int} (hlt : index < program.size)
    (hlimit : limitReached? options s = some limit) :
    step program options index s = .failed (.stepLimit limit ⟨s.pointer, index⟩) s := by
  unfold step
  rw [if_neg (Int.not_le.2 hlt), hlimit]

theorem step_of_getElem? (hlimit : options.maxSteps = none) {j : Nat} (hi : program[j]? = some i) :
    step program options j s = execute (!options.allowOverflows) i j s :=
  step_eq_execute (by rw [limitReached?, hlimit]) hi

theorem step_of_size_le {j : Nat} (hj : program.size ≤ j) : step program options j s = .done s := by
  unfold step
  rw [if_pos (Int.ofNat_le.mpr hj)]

/-- The next index and state of a run. -/
def next? (program : Array Instruction) (options : Options) (c : Int × State) :
    Option (Int × State) :=
  match step program options c.1 c.2 with
  | .next index s => some (index, s)
  | .done _ | .failed _ _ => none

theorem next?_of_step {c : Int × State} {s : State}
    (h : step program options c.1 c.2 = .next index s) :
    next? program options c = some (index, s) := by
  rw [next?, h]

theorem step_of_next? {c d : Int × State} (h : next? program options c = some d) :
    step program options c.1 c.2 = .next d.1 d.2 := by
  unfold next? at h
  split at h <;> cases h
  assumption

theorem next?_eq_none_of_step {c : Int × State} {error : RunError} {s : State}
    (h : step program options c.1 c.2 = .failed error s) : next? program options c = none := by
  rw [next?, h]

/-- From either end of a loop, the run goes on behind its end on a zero cell, and else in it. -/
theorem step_jump (hlimit : options.maxSteps = none) (hs : s.Inside) {j k place : Nat}
    (hj : program[j]? = some ⟨.beginLoop, k - j⟩) (hk : program[k]? = some ⟨.endLoop, k - j⟩)
    (hplace : place = j ∨ place = k) :
    step program options place s
      = .next ((if s.view.cell = 0 then k else j : Nat) + 1 : Nat) s.tick := by
  rcases hplace with rfl | rfl
  · rw [step_of_getElem? hlimit hj, execute_begin hs]
  · rw [step_of_getElem? hlimit hk, execute_end hs]

/-- Wherever a run goes on, an instruction has been executed. -/
theorem exists_execute_of_next? {c d : Int × State} (h : next? program options c = some d) :
    ∃ i, execute (!options.allowOverflows) i c.1 c.2 = .next d.1 d.2 := by
  have hstep := step_of_next? h
  unfold step at hstep
  split at hstep
  · cases hstep
  · split at hstep
    · cases hstep
    · split at hstep
      · cases hstep
      · split at hstep
        · cases hstep
        · exact ⟨_, hstep⟩

theorem inside_of_execute {index' : Int} {s' : State} (hs : s.Inside)
    (h : execute checked i index s = .next index' s') : s'.Inside := by
  obtain ⟨kind, arg⟩ := i
  by_cases hkind : kind.isLoop = false
  · exact (act_of_execute hkind hs h).2.1
  · cases kind with
    | beginLoop =>
      rw [execute_beginLoop hs] at h
      cases h
      exact hs
    | endLoop =>
      rw [execute_endLoop hs] at h
      cases h
      exact hs
    | _ => exact absurd rfl hkind

/-- The stepwise engine with a program, without a step limit and in a memory without bounds. -/
def platform (program : Array Instruction) (options : Options) (hlimit : options.maxSteps = none) :
    Platform (Int × State) where
  next? := next? program options
  checked := !options.allowOverflows
  stands c j v := c.1 = j ∧ c.2.Ample ∧ c.2.view = v
  holds j i := program[j]? = some i ∧ i.kind.isLoop = false
  loops j k :=
    program[j]? = some ⟨.beginLoop, k - j⟩ ∧ program[k]? = some ⟨.endLoop, k - j⟩
  act := by
    intro c j i _ w hc hi hact
    obtain ⟨_, s⟩ := c
    obtain ⟨rfl, hs, rfl⟩ := hc
    obtain ⟨hi, hkind⟩ := hi
    obtain ⟨s', hexec, hs', hview⟩ :=
      execute_of_act (j : Int) hkind hs.inside (hs.refusal?_eq_none i) hact
    have hmemory := (memory_of_execute hexec).trans hs.unlimited
    rw [← step_of_getElem? hlimit hi] at hexec
    exact ⟨_, next?_of_step hexec, rfl, ⟨hs', hmemory⟩, hview⟩
  halt := by
    intro c j i _ hc hi hact
    obtain ⟨_, s⟩ := c
    obtain ⟨rfl, hs, rfl⟩ := hc
    obtain ⟨hi, hkind⟩ := hi
    obtain ⟨error, s', hexec⟩ := execute_of_act_eq_none (j : Int) hkind hs.inside hact
    rw [← step_of_getElem? hlimit hi] at hexec
    exact next?_eq_none_of_step hexec
  jump := by
    intro c j k place _ hc hloop hplace
    obtain ⟨_, s⟩ := c
    obtain ⟨rfl, hs, rfl⟩ := hc
    obtain ⟨hj, hk⟩ := hloop
    exact ⟨_, next?_of_step (step_jump hlimit hs.inside hj hk hplace), rfl,
      ⟨hs.inside, hs.unlimited⟩, rfl⟩

@[simp] theorem platform_next? (hlimit : options.maxSteps = none) :
    (platform program options hlimit).next? = next? program options := rfl

/-! ## Layout -/

theorem getElem?_of_toList {x : Instruction} {before behind : List Instruction}
    (h : program.toList = before ++ x :: behind) : program[before.length]? = some x := by
  rw [← Array.getElem?_toList, h, List.getElem?_append_right (Nat.le_refl _), Nat.sub_self]
  rfl

/-- A program lies where its code stands. -/
theorem lies (hlimit : options.maxSteps = none) {b : Block}
    (hb : b.Every (·.kind.isLoop = false)) {before behind : List Instruction}
    (h : program.toList = before ++ (b.code ++ behind)) :
    (platform program options hlimit).Lies b before.length := by
  induction b generalizing before behind with
  | nil => trivial
  | step b i ih =>
    rw [Block.code, List.append_assoc] at h
    refine ⟨ih hb.1 h, ?_, hb.2⟩
    rw [← b.length_code, ← List.length_append]
    rw [← List.append_assoc] at h
    exact getElem?_of_toList h
  | loop b body ihb ih =>
    have hbegin : program.toList = (before ++ b.code) ++ (⟨.beginLoop, body.code.length + 1⟩ ::
        (body.code ++ (⟨.endLoop, body.code.length + 1⟩ :: behind))) := by
      simpa [Block.code, wrapLoop] using h
    have hbody : program.toList = (before ++ b.code ++ [⟨.beginLoop, body.code.length + 1⟩]) ++
        (body.code ++ (⟨.endLoop, body.code.length + 1⟩ :: behind)) := by
      simpa using hbegin
    have hend : program.toList = (before ++ b.code ++ [⟨.beginLoop, body.code.length + 1⟩] ++
        body.code) ++ (⟨.endLoop, body.code.length + 1⟩ :: behind) := by
      simpa using hbegin
    have hfirst : program.toList = before ++ (b.code ++ (wrapLoop body.code ++ behind)) := by
      rw [h, Block.code, List.append_assoc]
    have hb₁ := ihb hb.1 hfirst
    have hb₂ := ih hb.2 hbody
    have hj := getElem?_of_toList hbegin
    have hk := getElem?_of_toList hend
    simp only [List.length_append, Block.length_code, List.length_singleton] at hb₂ hj hk
    have hjump : ((before.length + b.size + 1 + body.size : Nat) : Int)
        - (before.length + b.size : Nat) = body.size + 1 := by
      push_cast
      omega
    refine ⟨hb₁, ⟨?_, ?_⟩, hb₂⟩
    · rw [hj, hjump]
    · rw [hk, hjump]

end Stepwise

end TapeLang
