import TapeLang.Proofs.Failing

/-!
# Effects and streams

Two instructions use the streams of a state: a print and a scan. Whatever change is made to the
streams (`State.onStreams`), it makes no difference to any other instruction, on either engine, and
comes out behind the instruction as it went in (`Stepwise.execute_onStreams`,
`Batch.advance_onStreams`). So a change to the output is noticed in one place only, at the print
that writes to it (`Machine.notices_take`).
-/

set_option autoImplicit false

namespace TapeLang

open Batch (Resumption)

/-- The state with a change made to its streams. -/
@[reducible]
def State.onStreams (f : Input → Input) (g : Output → Output) (s : State) : State :=
  { s with input := f s.input, output := g s.output }

/-- What has come of an effect, with a change made to the state. -/
def State.mapEffect (change : State → State) : Except Failure State → Except Failure State
  | .ok s => .ok (change s)
  | .error failure => .error ⟨failure.error, change failure.state⟩

/-- What has come of a move, with a change made to the state. -/
def Batch.Resumption.map (change : State → State) : Resumption → Resumption
  | .resume index s => .resume index (change s)
  | .ended ending s => .ended ending (change s)

variable {f : Input → Input} {g : Output → Output}

/-! ## Effects without streams -/

namespace State

variable {s : State} {checked : Bool} {amount distance sign index : Int} {value : UInt8}

theorem store_onStreams :
    (s.onStreams f g).store value = mapEffect (onStreams f g) (s.store value) := by
  simp only [store]
  split <;> rfl

theorem modify_onStreams :
    (s.onStreams f g).modify checked amount index
      = mapEffect (onStreams f g) (s.modify checked amount index) := by
  simp only [modify]
  split
  · rfl
  · split <;> rfl

theorem reach_onStreams {target : Int} :
    (s.onStreams f g).reach target = mapEffect (onStreams f g) (s.reach target) := by
  simp only [reach]
  split <;> rfl

theorem shift_onStreams :
    (s.onStreams f g).shift distance index
      = mapEffect (onStreams f g) (s.shift distance index) := by
  simp only [shift, reach_onStreams]
  by_cases hneg : s.pointer + distance < 0
  · simp only [if_pos hneg]
    rfl
  · simp only [if_neg hneg]
    cases s.reach (s.pointer + distance) <;> rfl

theorem transfer_onStreams :
    (s.onStreams f g).transfer checked sign distance index
      = mapEffect (onStreams f g) (s.transfer checked sign distance index) := by
  simp only [transfer, reach_onStreams]
  by_cases hneg : s.pointer + distance < 0
  · simp only [if_pos hneg]
    rfl
  · simp only [if_neg hneg]
    cases s.reach (s.pointer + distance) with
    | error failure => rfl
    | ok t =>
      simp only [mapEffect]
      split
      · rfl
      · split <;> rfl

/-- A print does not see the input. -/
theorem print_onInput {count : Int} :
    (s.onStreams f id).print count = mapEffect (onStreams f id) (s.print count) := by
  simp only [print, id]
  split
  · rfl
  · split <;> rfl

/-- A scan does not see the output. -/
theorem scan_onOutput :
    (s.onStreams id g).scan index = mapEffect (onStreams id g) (s.scan index) := by
  simp only [scan, id]
  split
  · rfl
  · rfl
  · rename_i byte input _
    exact store_onStreams (s := { s with input }) (f := id)

end State

/-- Neither a print nor a scan, where the instruction is one, sees the change to the streams. -/
structure Instruction.Overlooks (i : Instruction) (index : Int) (f : Input → Input)
    (g : Output → Output) (s : State) : Prop where
  print : i.kind = .print →
    (s.onStreams f g).print i.arg = State.mapEffect (.onStreams f g) (s.print i.arg)
  scan : i.kind = .scan →
    (s.onStreams f g).scan index = State.mapEffect (.onStreams f g) (s.scan index)

/-- Of a change to the output, only a print takes notice. -/
theorem Instruction.overlooks_output {i : Instruction} (hkind : i.kind ≠ .print) (index : Int)
    (g : Output → Output) (s : State) : i.Overlooks index id g s :=
  ⟨fun h => absurd h hkind, fun _ => State.scan_onOutput⟩

/-! ## Moves of both engines -/

theorem Batch.resumeAfter_onStreams (index : Int) (effect : Except Failure State) :
    resumeAfter index (State.mapEffect (.onStreams f g) effect)
      = (resumeAfter index effect).map (.onStreams f g) := by
  cases effect <;> rfl

namespace Stepwise

variable {checked : Bool} {i : Instruction} {index target : Int} {s : State} {onZero : Bool}

/-- Both engines go on in the same way behind an effect. -/
theorem resumption_goOn (index : Int) (effect : Except Failure State) :
    (goOn (index + 1) effect).resumption = Batch.resumeAfter index effect := by
  cases effect <;> rfl

theorem branch_onStreams :
    (branch onZero target index (s.onStreams f g)).resumption
      = (branch onZero target index s).resumption.map (.onStreams f g) := by
  simp only [branch]
  split <;> rfl

theorem execute_onStreams (h : i.Overlooks index f g s) :
    (execute checked i index (s.onStreams f g)).resumption
      = (execute checked i index s).resumption.map (.onStreams f g) := by
  obtain ⟨kind, arg⟩ := i
  have heffect {effect effect' : Except Failure State}
      (h : effect' = State.mapEffect (.onStreams f g) effect) :
      (goOn (index + 1) effect').resumption
        = (goOn (index + 1) effect).resumption.map (.onStreams f g) := by
    rw [h, resumption_goOn, resumption_goOn, Batch.resumeAfter_onStreams]
  cases kind with
  | modify => exact heffect State.modify_onStreams
  | shift => exact heffect State.shift_onStreams
  | print => exact heffect (h.print rfl)
  | scan => exact heffect (h.scan rfl)
  | clear => exact heffect State.store_onStreams
  | add => exact heffect State.transfer_onStreams
  | sub => exact heffect State.transfer_onStreams
  | beginLoop => exact branch_onStreams
  | endLoop => exact branch_onStreams

theorem take_onStreams {program : Array Instruction} {options : Options} {c : Int × State}
    (h : ∀ i, Batch.fetch? program c.1 = some i → i.Overlooks c.1 f g c.2) :
    take program options (c.1, c.2.onStreams f g)
      = (take program options c).map (.onStreams f g) := by
  have hlimit : limitReached? options (c.2.onStreams f g) = limitReached? options c.2 := rfl
  simp only [take, step_eq_of_fetch?, hlimit]
  split
  · rfl
  · split
    · rfl
    · split
      · rename_i i hi
        exact execute_onStreams (h i hi)
      · rfl

end Stepwise

namespace Batch

variable {code : Array Instruction} {options : Options} {reason : Stop} {index arg b : Int}
  {s : State} {l : Loop} {c : Int × State}

theorem act_onStreams
    (hprint : reason = .print →
      (s.onStreams f g).print arg = State.mapEffect (.onStreams f g) (s.print arg))
    (hscan : reason = .scan →
      (s.onStreams f g).scan index = State.mapEffect (.onStreams f g) (s.scan index)) :
    act options reason index arg (s.onStreams f g)
      = (act options reason index arg s).map (.onStreams f g) := by
  cases reason with
  | print => simp only [act, hprint rfl, resumeAfter_onStreams]
  | scan => simp only [act, hscan rfl, resumeAfter_onStreams]
  | grow =>
    simp only [act, State.reach_onStreams]
    cases s.reach (s.pointer + arg) <;> rfl
  | _ => rfl

/-- The loop hands over for a stream at an instruction that uses it. -/
theorem takes_of_stop (hheld : Held options c) (h : step code b (enter c.1 c.2) = .stop reason l)
    (hreason : reason = .print ∨ reason = .scan) :
    ∃ i, fetch? code c.1 = some i ∧ Takes i (enter c.1 c.2) (.stop reason l) := by
  simp only [step] at h
  split at h
  · cases h
    simp at hreason
  · split at h
    · cases h
      simp at hreason
    · split at h
      · rename_i i hi
        have htakes := hheld.takes i
        rw [h] at htakes
        exact ⟨i, hi, htakes⟩
      · cases h
        simp at hreason

theorem advance_onStreams (hheld : Held options c)
    (h : ∀ i, fetch? code c.1 = some i → i.Overlooks c.1 f g c.2) :
    advance code options (c.1, c.2.onStreams f g)
      = (advance code options c).map (.onStreams f g) := by
  -- the loop is entered with the cells and the pointer only
  have hentry : enter c.1 (c.2.onStreams f g) = enter c.1 c.2 := rfl
  have hbudget : budget options (c.2.onStreams f g) = budget options c.2 := rfl
  simp only [advance, hentry, hbudget]
  split
  · cases hstep : step code (budget options c.2) (enter c.1 c.2) with
    | next l => rfl
    | stop reason l =>
      obtain rfl : l = enter c.1 c.2 := eq_of_stop hstep
      apply act_onStreams (s := c.2)
      · intro hreason
        obtain ⟨i, hi, htakes⟩ := takes_of_stop hheld hstep (.inl hreason)
        subst hreason
        cases htakes with
        | print hkind =>
          rw [show fetch? code (enter c.1 c.2).index = some i from hi]
          exact (h i hi).print hkind
      · intro hreason
        obtain ⟨i, hi, htakes⟩ := takes_of_stop hheld hstep (.inr hreason)
        subst hreason
        cases htakes with
        | scan hkind => exact (h i hi).scan hkind
  · rfl

theorem Held.onStreams (h : Held options c) : Held options (c.1, c.2.onStreams f g) :=
  ⟨h.inside, h.pointer, h.steps⟩

/-- A turn that is not a print's takes no notice of the output. -/
theorem turn_onOutput (hcode : ∀ i ∈ code, isWord i.arg) (hheld : Held options (index, s))
    (h : ∀ i, fetch? code index = some i → i.kind ≠ .print) :
    turn code options (index, s.onStreams id g)
      = (turn code options (index, s)).map (.onStreams id g) := by
  have hround (t : State) (ht : Held options (index, t)) :
      advance code options (index, t.onStreams id g)
        = (advance code options (index, t)).map (.onStreams id g) := by
    apply advance_onStreams (f := id) (g := g) ht
    exact fun i hi => i.overlooks_output (h i hi) index g t
  unfold turn Walk.joined
  rw [hround s hheld]
  rcases advance_cases hcode hheld with hturns | ⟨t, hgrown, hsteps, ht, -⟩
  · generalize advance code options (index, s) = x at hturns
    cases x with
    | ended ending t => rfl
    | resume index' t =>
      cases hturns with
      | moves hcount =>
        have hne : ¬ t.steps = s.steps := by
          simp only at hcount
          omega
        simp only [Resumption.map, if_neg hne]
  · simp only at hgrown hsteps
    rw [hgrown]
    simp only [Resumption.map, if_pos hsteps]
    exact hround t ht

/-- The turn of a print. -/
theorem turn_of_print (hheld : Held options c) (hword : isWord (budget options c.2))
    (hlimit : Stepwise.limitReached? options c.2 = none) {i : Instruction}
    (hi : fetch? code c.1 = some i) (hkind : i.kind = .print) :
    turn code options c = resumeAfter c.1 (c.2.print i.arg) := by
  have hsame := turn_eq_execute hheld hword hlimit hi (by simp [hkind, Kind.hasTarget])
    (by simp [hkind, Kind.isLoop])
  rw [hsame]
  simp only [Stepwise.execute, hkind]
  exact Stepwise.resumption_goOn _ _

end Batch

/-! ## Who takes notice of the output -/

/-- What a change to the output makes of a move: the same move with that change, or the print at the
index on the changed output. -/
inductive Walk.Notices (code : Array Instruction) (take : Int × State → Resumption)
    (c : Int × State) : Prop
  | silent : (∀ g, take (c.1, c.2.onStreams id g) = (take c).map (.onStreams id g)) →
      Notices code take c
  | prints {i : Instruction} : Batch.fetch? code c.1 = some i → i.kind = .print →
      (∀ g, take (c.1, c.2.onStreams id g)
        = Batch.resumeAfter c.1 ((c.2.onStreams id g).print i.arg)) → Notices code take c

theorem Stepwise.notices_take (program : Array Instruction) (options : Options)
    (c : Int × State) : Walk.Notices program (take program options) c := by
  by_cases hsize : (program.size : Int) ≤ c.1
  · refine .silent fun g => ?_
    simp only [take, step, if_pos hsize]
    rfl
  have hlimit (g : Output → Output) :
      limitReached? options (c.2.onStreams id g) = limitReached? options c.2 := rfl
  cases hreached : limitReached? options c.2 with
  | some limit =>
    refine .silent fun g => ?_
    simp only [take, step, if_neg hsize, hlimit g, hreached]
    rfl
  | none =>
    by_cases hprint : ∃ i, Batch.fetch? program c.1 = some i ∧ i.kind = .print
    · obtain ⟨i, hi, hkind⟩ := hprint
      refine .prints hi hkind fun g => ?_
      simp only [take, step_eq_of_fetch?, if_neg hsize, hlimit g, hreached, hi, execute, hkind]
      exact resumption_goOn _ _
    · refine .silent fun g => take_onStreams fun i hi => ?_
      exact i.overlooks_output (fun hkind => hprint ⟨i, hi, hkind⟩) c.1 g c.2

namespace Batch

variable {code : Array Instruction} {options : Options} {index : Int} {s : State}

theorem notices_turn (hcode : ∀ i ∈ code, isWord i.arg) (hheld : Held options (index, s)) :
    Walk.Notices code (turn code options) (index, s) := by
  by_cases hprint : ∃ i, fetch? code index = some i ∧ i.kind = .print
  swap
  · exact .silent fun g => turn_onOutput hcode hheld fun i hi hkind => hprint ⟨i, hi, hkind⟩
  obtain ⟨i, hi, hkind⟩ := hprint
  have hlt := (lt_size_of_fetch? hi).1
  -- a run that is over before the print
  have hsilent (ending : Ending)
      (hround : ∀ g : Output → Output,
        advance code options (index, s.onStreams id g) = .ended ending (s.onStreams id g)) :
      Walk.Notices code (turn code options) (index, s) := by
    refine .silent fun g => ?_
    have hsame : turn code options (index, s) = .ended ending s :=
      Walk.joined_of_ended (hround id)
    rw [hsame]
    exact Walk.joined_of_ended (hround g)
  by_cases hword : isWord (budget options s)
  swap
  · refine hsilent (.failed .wordTooLarge) fun g => if_neg ?_
    rw [Bool.and_eq_true]
    exact fun h => hword h.2
  cases hreached : Stepwise.limitReached? options s with
  | some limit =>
    refine hsilent (.failed (.stepLimit limit ⟨s.pointer, index⟩)) fun g => ?_
    exact advance_of_limit (hheld.onStreams (f := id) (g := g)) hword hlt hreached
  | none => exact .prints hi hkind fun g => turn_of_print hheld.onStreams hword hreached hi hkind

end Batch

/-- **A change to the output makes a difference to a print only**, on either engine. -/
theorem Machine.notices_take {m : Machine} {c : Int × State} (h : m.Fits c) :
    Walk.Notices m.program m.take c := by
  cases m.mode with
  | stepwise _ htake =>
    rw [htake]
    exact Stepwise.notices_take _ _ _
  | batch hengine hwords htake =>
    rw [htake]
    exact Batch.notices_turn hwords (h.held hengine)
  | refused _ _ htake =>
    refine .silent fun g => ?_
    rw [htake, htake]
    rfl

/-- A fresh machine has the streams that it is given. -/
theorem Machine.new_onStreams {program : Program} {options : Options} {input : Input}
    {output : Output} {memory : Memory} {m : Machine}
    (hm : Machine.new program options input output memory = .ok m) :
    Machine.new program options (f input) (g output) memory
      = .ok { m with state := m.state.onStreams f g } := by
  unfold Machine.new at hm ⊢
  split at hm
  · cases hm
  · split at hm
    · rename_i hpos
      split at hm
      · cases hm
      · cases hm
        simp only [hpos, ↓reduceDIte]
    · cases hm

end TapeLang
