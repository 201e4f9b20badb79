import TapeLang.Proofs.Machines
import TapeLang.Proofs.Safety

/-!
# Programs one after the other

Jumps are relative and those of a compiled program never leave it. So two compiled programs, written
one behind the other, run as the first and then, on what it leaves behind, the second
(`runs_in_turn`). Only the places in the errors of the second one move, by the length of the first.
-/

set_option autoImplicit false

namespace TapeLang

open Batch (Resumption)

/-! ## Behind more instructions -/

/-- The place with more instructions before it. -/
def Place.behind (n : Nat) (p : Place) : Place := { p with index := p.index + n }

/-- The error of an instruction with more instructions before it, if it says where that is. -/
def RunError.behind (n : Nat) : RunError → RunError
  | .tapeUnderflow target place => .tapeUnderflow target (place.behind n)
  | .inputExhausted place => .inputExhausted (place.behind n)
  | .cellOverflow cell value place => .cellOverflow cell value (place.behind n)
  | .stepLimit limit place => .stepLimit limit (place.behind n)
  | e => e

def Failure.behind (n : Nat) (f : Failure) : Failure := { f with error := f.error.behind n }

/-- The end of a run with more instructions before the program. -/
def Ending.behind (n : Nat) : Ending → Ending
  | .completed => .completed
  | .failed error => .failed (error.behind n)
  | .unfinished index => .unfinished (index + n)

def Stepwise.Outcome.behind (n : Nat) : Stepwise.Outcome → Stepwise.Outcome
  | .next index s => .next (index + n) s
  | .done s => .done s
  | .failed error s => .failed (error.behind n) s

theorem RunError.behind_missing (n : Nat) (index : Int) (size : Nat) :
    (missing index size).behind n = missing index size := by
  unfold missing
  split
  · rfl
  · split <;> rfl

namespace State

variable (n : Nat) (index : Int) (s : State)

theorem behind_noCell : s.noCell.behind n = s.noCell := by
  rw [Failure.behind, noCell, RunError.behind_missing]

theorem store_behind (value : UInt8) :
    (s.store value).mapError (Failure.behind n) = s.store value := by
  unfold store
  split
  · exact congrArg Except.error (behind_noCell n s)
  · rfl

theorem modify_behind (checked : Bool) (amount : Int) :
    s.modify checked amount (index + n)
      = (s.modify checked amount index).mapError (Failure.behind n) := by
  unfold modify
  split
  · exact congrArg Except.error (behind_noCell n s).symm
  · simp only
    split <;> rfl

theorem shift_behind (distance : Int) :
    s.shift distance (index + n) = (s.shift distance index).mapError (Failure.behind n) := by
  unfold shift
  simp only
  split
  · rfl
  · rcases s.reach_cases (s.pointer + distance) with hreach | ⟨error, hreach⟩ <;> rw [hreach] <;>
      rfl

theorem transfer_behind (checked : Bool) (sign distance : Int) :
    s.transfer checked sign distance (index + n)
      = (s.transfer checked sign distance index).mapError (Failure.behind n) := by
  unfold transfer
  simp only
  split
  · rfl
  · rcases s.reach_cases (s.pointer + distance) with hreach | ⟨error, hreach⟩
    · rw [hreach]
      simp only
      split
      · exact congrArg Except.error (behind_noCell n _).symm
      · split <;> rfl
    · rw [hreach]
      rfl

theorem print_behind (count : Int) :
    (s.print count).mapError (Failure.behind n) = s.print count := by
  unfold print
  split
  · exact congrArg Except.error (behind_noCell n s)
  · simp only
    split <;> rfl

theorem scan_behind : s.scan (index + n) = (s.scan index).mapError (Failure.behind n) := by
  unfold scan
  split
  · rfl
  · rfl
  · exact (store_behind n _ _).symm

end State

namespace Stepwise

variable {program p q : Program} {options : Options} {index : Int} {s t : State} {level : Int}
  {c d : Int × State} {ending : Ending} {n : Nat}

/-! ## One instruction -/

theorem goOn_behind (n : Nat) (index : Int) (effect : Except Failure State) :
    goOn (index + n) (effect.mapError (Failure.behind n)) = (goOn index effect).behind n := by
  cases effect <;> rfl

theorem branch_behind (n : Nat) (onZero : Bool) (target index : Int) (s : State) :
    branch onZero (target + n) (index + n) s = (branch onZero target index s).behind n := by
  unfold branch
  split
  · exact congrArg (Outcome.failed · s) (RunError.behind_missing n _ _).symm
  · simp only [Outcome.behind]
    congr 1
    split <;> omega

/-- An instruction does the same wherever it stands. -/
theorem execute_behind (n : Nat) (checked : Bool) (i : Instruction) (index : Int) (s : State) :
    execute checked i (index + n) s = (execute checked i index s).behind n := by
  have hnext : index + n + 1 = index + 1 + n := by omega
  obtain ⟨kind, arg⟩ := i
  cases kind <;> simp only [execute, hnext]
  case modify => rw [State.modify_behind, goOn_behind]
  case shift => rw [State.shift_behind, goOn_behind]
  case print => rw [← goOn_behind, State.print_behind]
  case scan => rw [State.scan_behind, goOn_behind]
  case beginLoop => rw [← branch_behind, Int.add_right_comm]
  case endLoop => rw [← branch_behind, show index + n - arg = index - arg + n by omega]
  case clear => rw [← goOn_behind, State.store_behind]
  case add => rw [State.transfer_behind, goOn_behind]
  case sub => rw [State.transfer_behind, goOn_behind]

/-! ## One step -/

/-- In the first of two programs, a step is as in that program alone. -/
theorem step_append_left {j : Nat} (hj : j < p.length) :
    step (p ++ q).toArray options j s = step p.toArray options j s := by
  have hsize : j < p.toArray.size := by simpa using hj
  have hsize' : j < (p ++ q).toArray.size := by simp; omega
  cases hlimit : limitReached? options s with
  | some limit =>
    rw [step_of_limitReached? (Int.ofNat_lt.2 hsize) hlimit,
      step_of_limitReached? (Int.ofNat_lt.2 hsize') hlimit]
  | none =>
    have hi : p.toArray[j]? = some p[j] := by simp
    have hi' : (p ++ q).toArray[j]? = some p[j] := by
      rw [List.getElem?_toArray, List.getElem?_append_left hj, List.getElem?_eq_getElem hj]
    rw [step_eq_execute hlimit hi, step_eq_execute hlimit hi']

/-- In the second of two programs, a step is as in that program alone, but for the places. -/
theorem step_append_right (j : Nat) :
    step (p ++ q).toArray options (j + p.length : Int) s
      = (step q.toArray options j s).behind p.length := by
  rw [← Int.natCast_add]
  rcases Nat.lt_or_ge j q.length with hj | hj
  · have hsize : j < q.toArray.size := by simpa using hj
    have hsize' : j + p.length < (p ++ q).toArray.size := by simp; omega
    cases hlimit : limitReached? options s with
    | some limit =>
      rw [step_of_limitReached? (Int.ofNat_lt.2 hsize) hlimit,
        step_of_limitReached? (Int.ofNat_lt.2 hsize') hlimit]
      rfl
    | none =>
      have hi : q.toArray[j]? = some q[j] := by simp
      have hi' : (p ++ q).toArray[j + p.length]? = some q[j] := by
        rw [List.getElem?_toArray, List.getElem?_append_right (by omega), Nat.add_sub_cancel]
        simp
      rw [step_eq_execute hlimit hi, step_eq_execute hlimit hi', Int.natCast_add, execute_behind]
  · have hsize : q.toArray.size ≤ j := by simpa using hj
    have hsize' : (p ++ q).toArray.size ≤ j + p.length := by simp; omega
    rw [step_of_size_le hsize, step_of_size_le hsize']
    rfl

/-! ## Walks -/

/-- The configuration with more instructions before the program. -/
def moved (n : Nat) (c : Int × State) : Int × State := (c.1 + n, c.2)

theorem take_append_left (h₀ : 0 ≤ c.1) (hlt : c.1 < p.length) :
    take (p ++ q).toArray options c = take p.toArray options c := by
  obtain ⟨index, s⟩ := c
  obtain ⟨j, rfl⟩ := Int.eq_ofNat_of_zero_le h₀
  exact congrArg Outcome.resumption (step_append_left (Int.ofNat_lt.1 hlt))

theorem take_append_right (h₀ : 0 ≤ c.1) :
    take (p ++ q).toArray options (moved p.length c)
      = ((step q.toArray options c.1 c.2).behind p.length).resumption := by
  obtain ⟨index, s⟩ := c
  obtain ⟨j, rfl⟩ := Int.eq_ofNat_of_zero_le h₀
  exact congrArg Outcome.resumption (step_append_right j)

theorem resume_append_right (h₀ : 0 ≤ c.1) (h : take q.toArray options c = .resume index s) :
    take (p ++ q).toArray options (moved p.length c) = .resume (index + p.length) s := by
  rw [take_append_right h₀, take_eq_resume_iff.1 h]
  rfl

theorem ended_append_right (h₀ : 0 ≤ c.1) (h : take q.toArray options c = .ended ending s) :
    take (p ++ q).toArray options (moved p.length c) = .ended (ending.behind p.length) s := by
  rw [take_append_right h₀]
  unfold take at h
  generalize step q.toArray options c.1 c.2 = x at h
  cases x <;> cases h <;> rfl

section
variable (hp : WellFormed level program)
include hp

theorem safe_of_resume (hc : Safe program options c.1 c.2)
    (h : take program.toArray options c = .resume index s) : Safe program options index s :=
  safe_next hp hc (next?_of_step (take_eq_resume_iff.1 h))

theorem safe_of_after (hc : Safe program options c.1 c.2)
    (h : Walk.after (Walk.next? (take program.toArray options)) n c = some d) :
    Safe program options d.1 d.2 :=
  Walk.keeps_of_moves (p := fun d => Safe program options d.1 d.2) (safe_of_resume hp) hc h

end

/-- A run that goes on or fails is not at the end of the program. -/
theorem lt_length_of_take (hc : Safe program options c.1 c.2)
    (h : take program.toArray options c ≠ .ended .completed c.2) : c.1 < program.length := by
  obtain ⟨index, s⟩ := c
  obtain ⟨j, rfl⟩ := Int.eq_ofNat_of_zero_le hc.nonneg
  by_contra hge
  have hsize : program.toArray.size ≤ j := by simpa using hge
  exact h (congrArg Outcome.resumption (step_of_size_le hsize))

/-- A run is completed at the end of the program only. -/
theorem eq_of_completed (hc : Safe program options c.1 c.2)
    (h : take program.toArray options c = .ended .completed s) : c = (↑program.length, s) := by
  obtain ⟨index, t⟩ := c
  obtain ⟨j, rfl⟩ := Int.eq_ofNat_of_zero_le hc.nonneg
  have hle := Int.ofNat_le.1 hc.le_length
  unfold take at h
  rcases Nat.lt_or_ge j program.toArray.size with hlt | hge
  · cases hlimit : limitReached? options t with
    | some limit =>
      rw [step_of_limitReached? (Int.ofNat_lt.2 hlt) hlimit] at h
      cases h
    | none =>
      rw [step_eq_execute hlimit (Array.getElem?_eq_getElem hlt)] at h
      generalize hexec : execute _ _ (j : Int) t = x at h
      cases x with
      | done s' => exact absurd hexec (execute_ne_done hc.inside)
      | _ => cases h
  · obtain rfl : j = program.length := Nat.le_antisymm hle (by simpa using hge)
    rw [step_of_size_le hge] at h
    cases h
    rfl

section
variable {level' : Int} (hp : WellFormed level p) (hq : WellFormed level' q)

include hp in
theorem after_append_left (hc : Safe p options c.1 c.2)
    (h : Walk.after (Walk.next? (take p.toArray options)) n c = some d) :
    Walk.after (Walk.next? (take (p ++ q).toArray options)) n c = some d :=
  Walk.after_map (f := id) (p := fun d => Safe p options d.1 d.2) (fun {c d} hc hnext => by
    have htake := Walk.next?_eq_some_iff.1 hnext
    refine ⟨safe_of_resume hp hc htake, ?_⟩
    rw [Walk.next?_eq_some_iff, id, id,
      take_append_left hc.nonneg (lt_length_of_take hc (by simp [htake])), htake]) hc h

include hq in
theorem after_append_right (hc : Safe q options c.1 c.2)
    (h : Walk.after (Walk.next? (take q.toArray options)) n c = some d) :
    Walk.after (Walk.next? (take (p ++ q).toArray options)) n (moved p.length c)
      = some (moved p.length d) :=
  Walk.after_map (f := moved p.length) (p := fun d => Safe q options d.1 d.2) (fun hc hnext => by
    have htake := Walk.next?_eq_some_iff.1 hnext
    exact ⟨safe_of_resume hq hc htake,
      Walk.next?_eq_some_iff.2 (resume_append_right hc.nonneg htake)⟩) hc h

/-! ## Ends -/

include hp in
theorem ends_cases (hc : Safe p options c.1 c.2)
    (h : Walk.Ends (take p.toArray options) n c ending s) :
    s.Inside ∧ (ending = .completed ∨ ∃ error, ending = .failed error) := by
  obtain ⟨d, hafter, hend⟩ := h
  obtain ⟨hinside, hending⟩ :=
    permitted_of_stop? (safe_of_after hp hc hafter) (take_eq_ended_iff.1 hend)
  exact ⟨hinside, hending.imp_right fun ⟨error, herror, _⟩ => ⟨error, herror⟩⟩

include hp in
theorem ends_append_of_failed {error : RunError} (hc : Safe p options c.1 c.2)
    (h : Walk.Ends (take p.toArray options) n c (.failed error) s) :
    Walk.Ends (take (p ++ q).toArray options) n c (.failed error) s := by
  obtain ⟨d, hafter, hend⟩ := h
  have hd := safe_of_after hp hc hafter
  have hlt := lt_length_of_take hd (by simp [hend])
  exact ⟨d, after_append_left hp hc hafter, by rw [take_append_left hd.nonneg hlt, hend]⟩

include hp in
theorem after_append_of_completed (hc : Safe p options c.1 c.2)
    (h : Walk.Ends (take p.toArray options) n c .completed s) :
    Walk.after (Walk.next? (take (p ++ q).toArray options)) n c = some (moved p.length (0, s)) := by
  obtain ⟨d, hafter, hend⟩ := h
  obtain rfl := eq_of_completed (safe_of_after hp hc hafter) hend
  rw [after_append_left hp hc hafter, moved, Int.zero_add]

include hq in
theorem ends_append_right (hc : Safe q options c.1 c.2)
    (h : Walk.Ends (take q.toArray options) n c ending s) :
    Walk.Ends (take (p ++ q).toArray options) n (moved p.length c) (ending.behind p.length) s := by
  obtain ⟨d, hafter, hend⟩ := h
  exact ⟨moved p.length d, after_append_right hq hc hafter,
    ended_append_right (safe_of_after hq hc hafter).nonneg hend⟩

end

end Stepwise

/-! ## Machines -/

namespace Machine

/-- The run of the machine ends in a way and in a state. -/
def EndsIn (m : Machine) (ending : Ending) (s : State) : Prop :=
  ∃ events, m.Ends ⟨ending, s, events⟩

/-- What comes of running a program and then, if it has been completed, another one on the machine
that it leaves. The places of the errors of the second one count the instructions of both. -/
inductive EndsInTurn (m : Machine) (p q : Program) : Ending → State → Prop
  | first {error : RunError} {s : State} : (m.load p).EndsIn (.failed error) s →
      EndsInTurn m p q (.failed error) s
  | second {ending : Ending} {s t : State} : (m.load p).EndsIn .completed t →
      ({ m with state := t }.load q).EndsIn ending s →
      EndsInTurn m p q (ending.behind p.length) s

variable {m : Machine} {p q : Program} {ending : Ending} {s : State}

section
variable (hengine : m.options.engine = .stepwise) (hinside : m.state.Inside)
include hengine hinside

/-- A run of the stepwise engine, as a walk. -/
theorem endsIn_iff :
    (m.load p).EndsIn ending s ↔
      ∃ n, Walk.Ends (Stepwise.take p.toArray m.options) n (0, m.state) ending s := by
  have htake : (m.load p).take = Stepwise.take p.toArray m.options := take_of_stepwise hengine
  rw [← htake]
  exact ends_iff_walk ⟨hinside, fun hbatch => by cases hengine.symm.trans hbatch⟩

variable {level level' : Int} (hp : WellFormed level p) (hq : WellFormed level' q)
include hp hq

theorem endsIn_of_endsInTurn (h : m.EndsInTurn p q ending s) :
    (m.load (p ++ q)).EndsIn ending s := by
  have hsafe := Stepwise.safe_start hp m.options hinside
  cases h with
  | first hfirst =>
    obtain ⟨n, hend⟩ := (endsIn_iff hengine hinside).1 hfirst
    exact (endsIn_iff hengine hinside).2 ⟨n, Stepwise.ends_append_of_failed hp hsafe hend⟩
  | @second _ _ t hfirst hsecond =>
    obtain ⟨n, hend⟩ := (endsIn_iff hengine hinside).1 hfirst
    obtain ⟨ht, -⟩ := Stepwise.ends_cases hp hsafe hend
    have hsafe' := Stepwise.safe_start hq m.options ht
    obtain ⟨n', hend'⟩ := (endsIn_iff (m := { m with state := t }) hengine ht).1 hsecond
    have hseam := Stepwise.after_append_of_completed (q := q) hp hsafe hend
    exact (endsIn_iff hengine hinside).2
      ⟨n + n', .of_after hseam (Stepwise.ends_append_right hq hsafe' hend')⟩

theorem endsInTurn_of_endsIn (h : (m.load (p ++ q)).EndsIn ending s) :
    m.EndsInTurn p q ending s := by
  have hsafe := Stepwise.safe_start hp m.options hinside
  obtain ⟨n, hend⟩ := (endsIn_iff hengine hinside).1 h
  -- were the first program to go on for ever, so would both
  obtain ⟨k, e, t, hfirst⟩ := hend.exists_of_after
    fun hafter => ⟨_, Stepwise.after_append_left hp hsafe hafter⟩
  have hends := (endsIn_iff hengine hinside).2 ⟨k, hfirst⟩
  obtain ⟨ht, rfl | ⟨error, rfl⟩⟩ := Stepwise.ends_cases hp hsafe hfirst
  · have hseam := Stepwise.after_append_of_completed (q := q) hp hsafe hfirst
    obtain ⟨n', hrest⟩ := hend.of_trans hseam
    have hsafe' := Stepwise.safe_start hq m.options ht
    obtain ⟨k', e', u, hsecond⟩ := hrest.exists_of_after
      fun hafter => ⟨_, Stepwise.after_append_right hq hsafe' hafter⟩
    obtain ⟨-, rfl, rfl⟩ := hrest.unique (Stepwise.ends_append_right hq hsafe' hsecond)
    exact .second hends ((endsIn_iff (m := { m with state := t }) hengine ht).2 ⟨k', hsecond⟩)
  · obtain ⟨-, rfl, rfl⟩ := hend.unique (Stepwise.ends_append_of_failed hp hsafe hfirst)
    exact .first hends

end

end Machine

/-- **Two compiled programs in a row run one after the other**, from any state of the machine, with
any streams and any step limit: the run of both ends if and only if theirs do, and as theirs do. -/
theorem runs_in_turn {m : Machine} {level level' : Int} {text text' : List Char}
    {c d : Compilation} (hc : compile level text = .ok c) (hd : compile level' text' = .ok d)
    (hengine : m.options.engine = .stepwise) (hinside : m.state.Inside) (ending : Ending)
    (s : State) :
    (m.load (c.program ++ d.program)).EndsIn ending s ↔
      m.EndsInTurn c.program d.program ending s :=
  have hp := wellFormed_of_compile hc
  have hq := wellFormed_of_compile hd
  ⟨Machine.endsInTurn_of_endsIn hengine hinside hp hq,
    Machine.endsIn_of_endsInTurn hengine hinside hp hq⟩

/-- A loop that uses up the steps exactly, so that the limit stops the run at the seam. -/
theorem runs_in_turn_seam :
    ∃ (m : Machine) (c d : Compilation) (s t : State),
      compile 0 ['+', '[', '-', ']'] = .ok c ∧ compile 1 ['<', '[', '>', '.', ']'] = .ok d ∧
      m.options.engine = .stepwise ∧ m.state.Inside ∧
      (m.load c.program).EndsIn .completed t ∧
      ({ m with state := t }.load d.program).EndsIn (.failed (.stepLimit 9 ⟨1, 0⟩)) s ∧
      (m.load (c.program ++ d.program)).EndsIn (.failed (.stepLimit 9 ⟨1, 4⟩)) s := by
  have hc : compile 0 ['+', '[', '-', ']'] = .ok ⟨[⟨.modify, 1⟩, ⟨.beginLoop, 2⟩, ⟨.modify, -1⟩,
    ⟨.endLoop, 2⟩], ⟨1, 0⟩⟩ := rfl
  have hd : compile 1 ['<', '[', '>', '.', ']'] = .ok ⟨[⟨.shift, -1⟩, ⟨.beginLoop, 3⟩, ⟨.shift, 1⟩,
    ⟨.print, 1⟩, ⟨.endLoop, 3⟩], ⟨1, 0⟩⟩ := rfl
  have hruns : ∃ (m : Machine) (t : State), m.options.engine = .stepwise ∧ m.state.Inside ∧
      (m.load [⟨.modify, 1⟩, ⟨.beginLoop, 2⟩, ⟨.modify, -1⟩, ⟨.endLoop, 2⟩]).runFor 7
        = ⟨.completed, t, #[]⟩ ∧
      ({ m with state := t }.load [⟨.shift, -1⟩, ⟨.beginLoop, 3⟩, ⟨.shift, 1⟩, ⟨.print, 1⟩,
        ⟨.endLoop, 3⟩]).runFor 1 = ⟨.failed (.stepLimit 9 ⟨1, 0⟩), t, #[]⟩ := by
    refine ⟨⟨#[], { maxSteps := some 9 },
      { tape := ⟨2, #[0, 1], by decide⟩, pointer := 1, steps := 3, input := {}, output := {} }⟩,
      { tape := ⟨2, #[0, 0], by decide⟩, pointer := 1, steps := 9, input := {}, output := {} },
      rfl, ⟨by decide, by decide⟩, ?_, ?_⟩
    · rfl
    · rfl
  obtain ⟨m, t, hengine, hinside, hfirst, hsecond⟩ := hruns
  have hends : (m.load [⟨.modify, 1⟩, ⟨.beginLoop, 2⟩, ⟨.modify, -1⟩, ⟨.endLoop, 2⟩]).EndsIn
    .completed t := ⟨_, 7, hfirst, Ending.isFinal_completed⟩
  have hends' : ({ m with state := t }.load [⟨.shift, -1⟩, ⟨.beginLoop, 3⟩, ⟨.shift, 1⟩,
    ⟨.print, 1⟩, ⟨.endLoop, 3⟩]).EndsIn (.failed (.stepLimit 9 ⟨1, 0⟩)) t :=
    ⟨_, 1, hsecond, Ending.isFinal_failed _⟩
  exact ⟨m, _, _, t, t, hc, hd, hengine, hinside, hends, hends',
    (runs_in_turn hc hd hengine hinside _ t).2 (.second hends hends')⟩

end TapeLang
