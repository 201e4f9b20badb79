import TapeLang.Proofs.Limits
import TapeLang.Proofs.Streams

/-!
# Nothing is read ahead

More data behind the input (`State.feed`) makes no difference to a run as long as it does not ask
for input where there is none: each of its moves is the same, with the new data still behind the
input. That holds of every effect, so of both engines and of any program. The move that runs out of
input has read all there was; with more data the run goes on from there, and never takes back what
it has written (`Machine.Continues`).
-/

set_option autoImplicit false

namespace TapeLang

open Batch (Resumption)

variable {bytes : List UInt8}

/-! ## More data behind the input -/

namespace Input

/-- A read does not see the new data, unless it finds nothing else. -/
theorem read?_feed (input : Input) (bytes : List UInt8) :
    (input.feed bytes).read? = input.read?.map (fun read => (read.1, read.2.feed bytes)) ∨
      ∃ rest, input.read? = some (none, rest) := by
  obtain ⟨_ | ⟨byte, pending⟩, consumed, _ | _ | n⟩ := input
  case nil.some.zero => exact .inl rfl
  case nil.none => exact .inr ⟨_, rfl⟩
  case nil.some.succ => exact .inr ⟨_, rfl⟩
  all_goals exact .inl rfl

/-- How many bytes there are, read or not. -/
def total (input : Input) : Nat := input.consumed + input.pending.length

theorem total_of_read? {input rest : Input} {byte? : Option UInt8}
    (h : input.read? = some (byte?, rest)) : rest.total = input.total := by
  unfold total
  rcases read?_eq_some h with ⟨-, hpending, hrest, hconsumed⟩ | ⟨byte, -, hpending, hconsumed⟩
  · rw [hpending, hrest, hconsumed]
  · rw [hpending, hconsumed, List.length_cons]
    omega

end Input

/-- The state with more data behind its input. -/
@[reducible]
def State.feed (bytes : List UInt8) (s : State) : State := { s with input := s.input.feed bytes }

/-- What has come of an effect, with more data behind the input. -/
def State.fed (bytes : List UInt8) : Except Failure State → Except Failure State
  | .ok s => .ok (s.feed bytes)
  | .error failure => .error ⟨failure.error, failure.state.feed bytes⟩

/-- What has come of a move, with more data behind the input. -/
def Batch.Resumption.feed (bytes : List UInt8) : Resumption → Resumption
  | .resume index s => .resume index (s.feed bytes)
  | .ended ending s => .ended ending (s.feed bytes)

/-- The run has asked for input where there is none. -/
def Batch.Resumption.RunsOut (x : Resumption) : Prop :=
  ∃ place s, x = .ended (.failed (.inputExhausted place)) s

/-- New data makes no difference to a move, unless the move runs out of input. -/
def Walk.Ignores (bytes : List UInt8) (take : Int × State → Resumption) : Prop :=
  ∀ index s, take (index, s.feed bytes) = (take (index, s)).feed bytes ∨ (take (index, s)).RunsOut

/-! ## Effects -/

theorem State.fed_eq (effect : Except Failure State) :
    fed bytes effect = mapEffect (.onStreams (.feed · bytes) id) effect := by
  cases effect <;> rfl

theorem Batch.Resumption.feed_eq (x : Resumption) :
    x.feed bytes = x.map (.onStreams (.feed · bytes) id) := by
  cases x <;> rfl

/-- A scan takes its byte from the old data, unless there is none. -/
theorem State.scan_feed (bytes : List UInt8) (index : Int) (s : State) :
    (s.feed bytes).scan index = fed bytes (s.scan index) ∨
      ∃ place t, s.scan index = .error ⟨.inputExhausted place, t⟩ := by
  rcases s.input.read?_feed bytes with hread | ⟨rest, hread⟩
  · left
    rw [scan, scan, show (s.feed bytes).input.read? = _ from hread, fed_eq]
    rcases s.input.read? with _ | ⟨_ | byte, rest⟩
    · rfl
    · rfl
    · exact store_onStreams (f := (.feed · bytes)) (g := id) (s := { s with input := rest })
  · right
    simp only [scan, hread]
    exact ⟨_, _, rfl⟩

/-! ## Moves of both engines -/

namespace Stepwise

theorem execute_feed {checked : Bool} {i : Instruction} {index : Int} {s : State} :
    (execute checked i index (s.feed bytes)).resumption
        = (execute checked i index s).resumption.feed bytes ∨
      (execute checked i index s).resumption.RunsOut := by
  rw [Resumption.feed_eq]
  rcases s.scan_feed bytes index with hscan | ⟨place, t, hscan⟩
  · left
    rw [State.fed_eq] at hscan
    apply execute_onStreams (f := (.feed · bytes)) (g := id) (s := s)
    exact ⟨fun _ => State.print_onInput, fun _ => hscan⟩
  · by_cases hkind : i.kind = .scan
    · right
      simp only [execute, hkind, hscan]
      exact ⟨place, t, rfl⟩
    · left
      apply execute_onStreams (f := (.feed · bytes)) (g := id) (s := s)
      exact ⟨fun _ => State.print_onInput, fun h => absurd h hkind⟩

theorem ignores_take (program : Array Instruction) (options : Options) :
    Walk.Ignores bytes (take program options) := by
  intro index s
  have hlimit : limitReached? options (s.feed bytes) = limitReached? options s := rfl
  simp only [take, step_eq_of_fetch?, hlimit]
  split
  · exact .inl rfl
  · split
    · exact .inl rfl
    · split
      · exact execute_feed
      · exact .inl rfl

end Stepwise

namespace Batch

variable {options : Options} {reason : Stop} {index arg : Int} {s : State}

theorem act_feed :
    act options reason index arg (s.feed bytes) = (act options reason index arg s).feed bytes ∨
      (act options reason index arg s).RunsOut := by
  rw [Resumption.feed_eq]
  rcases s.scan_feed bytes index with hscan | ⟨place, t, hscan⟩
  · left
    rw [State.fed_eq] at hscan
    apply act_onStreams (f := (.feed · bytes)) (g := id) (s := s) fun _ => State.print_onInput
    exact fun _ => hscan
  · by_cases hreason : reason = .scan
    · right
      simp only [act, hreason, hscan]
      exact ⟨place, t, rfl⟩
    · left
      apply act_onStreams (f := (.feed · bytes)) (g := id) (s := s) fun _ => State.print_onInput
      exact fun h => absurd h hreason

theorem ignores_advance (code : Array Instruction) (options : Options) :
    Walk.Ignores bytes (advance code options) := by
  intro index s
  -- the loop is entered with the cells and the pointer only
  have hentry : enter index (s.feed bytes) = enter index s := rfl
  have hbudget : budget options (s.feed bytes) = budget options s := rfl
  simp only [advance, hentry, hbudget]
  split
  · split
    · exact .inl rfl
    · rename_i reason l _
      exact act_feed (s := leave s l)
  · exact .inl rfl

end Batch

theorem Walk.Ignores.joined {take : Int × State → Resumption} (h : Ignores bytes take) :
    Ignores bytes (joined take) := by
  intro index s
  unfold Walk.joined
  rcases h index s with hmove | hout
  · rw [hmove]
    cases take (index, s) with
    | ended ending t => exact .inl rfl
    | resume index' t =>
      simp only [Resumption.feed]
      by_cases hsteps : t.steps = s.steps
      · simp only [if_pos hsteps]
        exact h index' t
      · exact .inl (by simp only [if_neg hsteps])
  · right
    obtain ⟨place, t, hout⟩ := hout
    rw [hout]
    exact ⟨place, t, rfl⟩

/-- **New data makes no difference to a machine**, unless it runs out of input. -/
theorem Machine.ignores_take (m : Machine) (bytes : List UInt8) : Walk.Ignores bytes m.take := by
  cases m.mode with
  | stepwise _ htake =>
    rw [htake]
    exact Stepwise.ignores_take _ _
  | batch _ _ htake =>
    rw [htake]
    exact (Batch.ignores_advance _ _).joined
  | refused _ _ htake =>
    intro index s
    rw [htake, htake]
    exact .inl rfl

/-! ## Streams of a run -/

/-- A later state has written no less, and has as many bytes of input, read or not. -/
structure State.LeadsTo (s t : State) : Prop where
  written : s.output.written.toList <+: t.output.written.toList
  total : t.input.total = s.input.total

/-- Every move keeps what has been written, and all of the input. -/
def Walk.Streams (take : Int × State → Resumption) : Prop :=
  ∀ c : Int × State, c.2.LeadsTo (take c).state

namespace State

variable {s t u : State} {checked : Bool} {amount distance sign index count : Int} {value : UInt8}

theorem LeadsTo.of_eq (houtput : t.output = s.output) (hinput : t.input = s.input) :
    s.LeadsTo t :=
  ⟨houtput ▸ List.prefix_rfl, congrArg Input.total hinput⟩

theorem LeadsTo.refl (s : State) : s.LeadsTo s := .of_eq rfl rfl

theorem LeadsTo.trans (h : s.LeadsTo t) (h' : t.LeadsTo u) : s.LeadsTo u :=
  ⟨h.written.trans h'.written, h'.total.trans h.total⟩

theorem leadsTo_store : s.LeadsTo (leftBy (s.store value)) := by
  unfold store
  split <;> exact .of_eq rfl rfl

theorem leadsTo_modify : s.LeadsTo (leftBy (s.modify checked amount index)) := by
  simp only [modify]
  split
  · exact .of_eq rfl rfl
  · split <;> exact .of_eq rfl rfl

theorem leadsTo_shift : s.LeadsTo (leftBy (s.shift distance index)) := by
  simp only [shift]
  split
  · exact .of_eq rfl rfl
  · rcases s.reach_cases (s.pointer + distance) with hreach | ⟨error, hreach⟩
    · rw [hreach]
      exact .of_eq rfl rfl
    · rw [hreach]
      exact .refl _

theorem leadsTo_transfer : s.LeadsTo (leftBy (s.transfer checked sign distance index)) := by
  simp only [transfer]
  split
  · exact .of_eq rfl rfl
  · rcases s.reach_cases (s.pointer + distance) with hreach | ⟨error, hreach⟩
    · rw [hreach]
      simp only
      split
      · exact .of_eq rfl rfl
      · split <;> exact .of_eq rfl rfl
    · rw [hreach]
      exact .refl _

theorem leadsTo_print : s.LeadsTo (leftBy (s.print count)) := by
  simp only [print]
  split
  · exact .of_eq rfl rfl
  · split <;> exact ⟨View.putMany_written _ _ _, rfl⟩

theorem leadsTo_scan : s.LeadsTo (leftBy (s.scan index)) := by
  unfold scan
  split
  · exact .of_eq rfl rfl
  · rename_i hread
    exact ⟨List.prefix_rfl, Input.total_of_read? hread⟩
  · rename_i byte input hread
    have hread' : s.LeadsTo { s with input } := ⟨List.prefix_rfl, Input.total_of_read? hread⟩
    exact hread'.trans leadsTo_store

end State

theorem Batch.leadsTo_resumeAfter {s : State} {index : Int} {effect : Except Failure State}
    (h : s.LeadsTo (State.leftBy effect)) : s.LeadsTo (resumeAfter index effect).state := by
  cases effect with
  | ok t => exact h.trans (.of_eq rfl rfl)
  | error failure => exact h

theorem Stepwise.streams_take (program : Array Instruction) (options : Options) :
    Walk.Streams (take program options) := by
  intro c
  have hgoOn {s : State} {index : Int} {effect : Except Failure State}
      (h : s.LeadsTo (State.leftBy effect)) :
      s.LeadsTo (goOn (index + 1) effect).resumption.state := by
    rw [resumption_goOn]
    exact Batch.leadsTo_resumeAfter h
  have hbranch {onZero : Bool} {target index : Int} {s : State} :
      s.LeadsTo (branch onZero target index s).resumption.state := by
    unfold branch
    split <;> exact .of_eq rfl rfl
  unfold take
  rw [step_eq_of_fetch?]
  split
  · exact .refl _
  · split
    · exact .refl _
    · split
      · rename_i i _
        obtain ⟨kind, arg⟩ := i
        cases kind with
        | modify => exact hgoOn State.leadsTo_modify
        | shift => exact hgoOn State.leadsTo_shift
        | print => exact hgoOn State.leadsTo_print
        | scan => exact hgoOn State.leadsTo_scan
        | clear => exact hgoOn State.leadsTo_store
        | add => exact hgoOn State.leadsTo_transfer
        | sub => exact hgoOn State.leadsTo_transfer
        | beginLoop => exact hbranch
        | endLoop => exact hbranch
      · exact .refl _

theorem Batch.streams_advance (code : Array Instruction) (options : Options) :
    Walk.Streams (advance code options) := by
  intro c
  have hleave (l : Loop) : c.2.LeadsTo (leave c.2 l) := .of_eq rfl rfl
  unfold advance
  split
  · split
    · exact hleave _
    · rename_i reason l _
      refine (hleave l).trans ?_
      cases reason with
      | print => exact leadsTo_resumeAfter State.leadsTo_print
      | scan => exact leadsTo_resumeAfter State.leadsTo_scan
      | grow =>
        simp only [act]
        rcases (leave c.2 l).reach_cases _ with hreach | ⟨error, hreach⟩
        · rw [hreach]
          exact .of_eq rfl rfl
        · rw [hreach]
          exact .refl _
      | _ => exact .of_eq rfl rfl
  · exact .refl _

theorem Walk.Streams.joined {take : Int × State → Resumption} (h : Streams take) :
    Streams (joined take) := by
  intro c
  rcases joined_cases take c with hsame | ⟨index, s, hmove, hsame⟩
  · rw [hsame]
    exact h c
  · have hfirst := h c
    rw [hmove] at hfirst
    rw [hsame]
    exact hfirst.trans (h (index, s))

theorem Machine.streams_take (m : Machine) : Walk.Streams m.take := by
  cases m.mode with
  | stepwise _ htake =>
    rw [htake]
    exact Stepwise.streams_take _ _
  | batch _ _ htake =>
    rw [htake]
    exact (Batch.streams_advance _ _).joined
  | refused _ _ htake =>
    intro c
    rw [htake]
    exact .refl _

namespace Walk

variable {take : Int × State → Resumption} {c d : Int × State} {n : Nat} {ending : Ending}
  {s : State} (h : Streams take)
include h

theorem Streams.after (hafter : after (next? take) n c = some d) : c.2.LeadsTo d.2 := by
  refine keeps_of_moves (p := fun e => c.2.LeadsTo e.2) (fun {e index s} he hmove => ?_)
    (.refl c.2) hafter
  have hlast := h e
  rw [hmove] at hlast
  exact he.trans hlast

theorem Streams.ends (hend : Ends take n c ending s) : c.2.LeadsTo s := by
  obtain ⟨d, hd, hstop⟩ := hend
  have hlast := h d
  rw [hstop] at hlast
  exact (h.after hd).trans hlast

end Walk

/-! ## Runs with more data -/

namespace Walk.Ignores

variable {take : Int × State → Resumption} {d : Int × State} {n : Nat} {index : Int}
  {ending : Ending} {s s' : State} (h : Ignores bytes take)
include h

theorem after (hafter : after (next? take) n (index, s) = some d) :
    Walk.after (Walk.next? take) n (index, s.feed bytes) = some (d.1, d.2.feed bytes) := by
  have hmove {index : Int} {s t : State} {index' : Int} {s' : State} (ht : t = s.feed bytes)
      (htake : take (index, s) = .resume index' s') :
      ∃ t', take (index, t) = .resume index' t' ∧ t' = s'.feed bytes := by
    subst ht
    rcases h index s with hsame | ⟨_, _, hout⟩
    · exact ⟨_, by rw [hsame, htake]; rfl, rfl⟩
    · rw [htake] at hout
      cases hout
  obtain ⟨t, ht, rfl⟩ := after_simulates hmove rfl hafter
  exact ht

theorem ends (hend : Ends take n (index, s) ending s')
    (hinput : ∀ place, ending ≠ .failed (.inputExhausted place)) :
    Ends take n (index, s.feed bytes) ending (s'.feed bytes) := by
  obtain ⟨d, hd, hstop⟩ := hend
  refine ⟨_, h.after hd, ?_⟩
  rcases h d.1 d.2 with hsame | ⟨place, _, hout⟩
  · rw [hsame, hstop]
    rfl
  · rw [hstop] at hout
    cases hout
    exact absurd rfl (hinput place)

end Walk.Ignores

namespace Machine

variable {m : Machine} {index : Int} {place : Place} {s t : State}

/-- The machine with more data behind its input. -/
def feed (bytes : List UInt8) (m : Machine) : Machine := { m with state := m.state.feed bytes }

/-- With new data, the run comes by the state in which another one has run out of input, and goes
on from there. -/
structure Continues (m : Machine) (bytes : List UInt8) (place : Place) (s : State) : Prop where
  reaches : ∃ input, m.after s.steps = some (place.index, { s with input }) ∧
    input.pending = bytes ∧ input.consumed = s.input.consumed
  later : ∀ {n c}, s.steps ≤ n → m.after n = some c →
    s.output.written.toList <+: c.2.output.written.toList
  ends : ∀ {rep}, m.Ends rep → s.output.written.toList <+: rep.state.output.written.toList

/-- A machine that runs out of input has read everything, and has done nothing else. -/
theorem eq_of_runsOut (h : m.Fits (index, t))
    (hend : m.take (index, t) = .ended (.failed (.inputExhausted place)) s) :
    place = ⟨t.pointer, index⟩ ∧
      ∃ input, t.input.read? = some (none, input) ∧ s = { t with input } := by
  generalize herror : RunError.inputExhausted place = error at hend
  cases m.mode with
  | stepwise _ htake =>
    have hmoves := Stepwise.moves_take m.program m.options h.inside
    rw [← htake, hend] at hmoves
    cases hmoves with
    | limit => cases herror
    | missing => cases herror
    | fails _ _ hfails =>
      cases hfails with
      | exhausted _ hread =>
        cases herror
        exact ⟨rfl, _, hread, rfl⟩
      | _ => cases herror
  | batch hengine hwords htake =>
    have hturns := Batch.turns_turn hwords (h.held hengine)
    rw [← htake, hend] at hturns
    cases hturns with
    | scan _ _ heffect =>
      rcases (State.scan_eq_error_iff h.inside).1 heffect with ⟨-, rfl⟩ | ⟨input, hread, rfl⟩
      · cases herror
      · cases herror
        exact ⟨rfl, input, hread, rfl⟩
    | print _ _ heffect =>
      obtain ⟨-, rfl⟩ := (State.print_eq_error_iff h.inside).1 heffect
      cases herror
    | missing =>
      have hplace := congrArg RunError.place? herror
      rw [RunError.place?_missing] at hplace
      cases hplace
    | _ => cases herror
  | refused _ _ htake =>
    rw [htake] at hend
    cases hend
    cases herror

theorem new_feed {program : Program} {options : Options} {input : Input} {output : Output}
    {memory : Memory} (hm : Machine.new program options input output memory = .ok m) :
    Machine.new program options (input.feed bytes) output memory = .ok (m.feed bytes) :=
  new_onStreams (f := (.feed · bytes)) (g := id) hm

end Machine

/-- **Nothing is read ahead**: if a run does not end for want of input, more data behind the input
changes nothing about its end. If it does, it has read all there was, and with more data the run
comes by the same state and goes on from there. -/
theorem nothing_read_ahead {program : Program} {options : Options} {input : Input}
    {output : Output} {memory : Memory} {m m' : Machine} (bytes : List UInt8)
    (hm : Machine.new program options input output memory = .ok m)
    (hm' : Machine.new program options (input.feed bytes) output memory = .ok m') :
    (∀ rep, m.Ends rep → (∀ place, rep.ending ≠ .failed (.inputExhausted place)) →
      ∃ rep', m'.Ends rep' ∧ rep'.ending = rep.ending ∧ rep'.state = rep.state.feed bytes) ∧
    ∀ place s events, m.Ends ⟨.failed (.inputExhausted place), s, events⟩ →
      s.input.pending = [] ∧ s.input.consumed = input.consumed + input.pending.length ∧
        m'.Continues bytes place s := by
  obtain rfl : m.feed bytes = m' := Except.ok.inj ((Machine.new_feed hm).symm.trans hm')
  have hignores := m.ignores_take bytes
  obtain ⟨_, hstate⟩ := Machine.state_of_new hm
  constructor
  · intro rep h hinput
    obtain ⟨n, hend⟩ := (Machine.ends_iff_walk (Machine.fits_of_new hm)).1 ⟨rep.events, h⟩
    obtain ⟨events, h'⟩ := (Machine.ends_iff_walk (Machine.fits_of_new hm')).2
      ⟨n, hignores.ends hend hinput⟩
    exact ⟨_, h', rfl, rfl⟩
  · intro place s events h
    obtain ⟨n, ⟨index, t⟩, hafter, hend⟩ := (Machine.ends_iff_after hm).1 ⟨events, h⟩
    obtain rfl := Machine.steps_of_end hm hafter hend
    obtain ⟨rfl, rest, hread, rfl⟩ :=
      Machine.eq_of_runsOut (Machine.fits_of_after hm hafter) hend
    obtain ⟨hpending, hrest, hconsumed⟩ := Input.keeps_of_read? hread
    have hreached : (m.feed bytes).after t.steps = some (index, t.feed bytes) :=
      hignores.after hafter
    have hstreams := (m.feed bytes).streams_take
    refine ⟨hrest, ?_, ⟨t.input.feed bytes, hreached, ?_, hconsumed.symm⟩, ?later, ?ends⟩
    · have htotal : t.input.total = m.state.input.total := (m.streams_take.after hafter).total
      rw [hstate, Input.total, hpending] at htotal
      exact hconsumed.trans htotal
    · show t.input.pending ++ bytes = bytes
      rw [hpending]
      rfl
    case later =>
      intro n c hle hc
      replace hle : t.steps ≤ n := hle
      obtain ⟨k, rfl⟩ : ∃ k, n = t.steps + k := ⟨n - t.steps, by omega⟩
      rw [Machine.after, Walk.after_trans hreached] at hc
      exact (hstreams.after hc).written
    case ends =>
      intro rep h'
      obtain ⟨n, hend'⟩ := (Machine.ends_iff_walk (Machine.fits_of_new hm')).1 ⟨rep.events, h'⟩
      obtain ⟨k, hrest'⟩ := hend'.of_trans hreached
      exact (hstreams.ends hrest').written

/-- Two bytes are echoed. With the first one only, the run stops at the second scan; and a third one
stays where it is. -/
theorem nothing_read_ahead_echo :
    ∃ m m' m'' s events rep rep', Machine.new [⟨.scan, 1⟩, ⟨.print, 1⟩, ⟨.scan, 1⟩, ⟨.print, 1⟩]
        { chunkSize := 1, engineName := Engine.batch.name } { pending := [65] } {} = .ok m ∧
      Machine.new [⟨.scan, 1⟩, ⟨.print, 1⟩, ⟨.scan, 1⟩, ⟨.print, 1⟩]
        { chunkSize := 1, engineName := Engine.batch.name } { pending := [65, 66] } {} = .ok m' ∧
      Machine.new [⟨.scan, 1⟩, ⟨.print, 1⟩, ⟨.scan, 1⟩, ⟨.print, 1⟩]
        { chunkSize := 1, engineName := Engine.batch.name } { pending := [65, 66, 67] } {}
        = .ok m'' ∧
      m.Ends ⟨.failed (.inputExhausted ⟨0, 2⟩), s, events⟩ ∧ s.output.written = #[65] ∧
      s.input.pending = [] ∧ s.input.consumed = 1 ∧ m'.Continues [66] ⟨0, 2⟩ s ∧
      m'.Ends rep ∧ rep.ending = .completed ∧
      m''.Ends rep' ∧ rep'.ending = .completed ∧ rep'.state = rep.state.feed [67] := by
  have hm : ∃ m s events, Machine.new [⟨.scan, 1⟩, ⟨.print, 1⟩, ⟨.scan, 1⟩, ⟨.print, 1⟩]
      { chunkSize := 1, engineName := Engine.batch.name } { pending := [65] } {} = .ok m ∧
    m.runFor 4 = ⟨.failed (.inputExhausted ⟨0, 2⟩), s, events⟩ ∧ s.output.written = #[65] :=
    ⟨_, _, _, rfl, rfl, rfl⟩
  have hm' : ∃ m rep, Machine.new [⟨.scan, 1⟩, ⟨.print, 1⟩, ⟨.scan, 1⟩, ⟨.print, 1⟩]
      { chunkSize := 1, engineName := Engine.batch.name } { pending := [65, 66] } {} = .ok m ∧
    m.runFor 6 = rep ∧ rep.ending = .completed := ⟨_, _, rfl, rfl, rfl⟩
  obtain ⟨m, s, events, hm, hrun, hwritten⟩ := hm
  obtain ⟨m', rep, hm', hrun', hending⟩ := hm'
  have hends : m.Ends ⟨.failed (.inputExhausted ⟨0, 2⟩), s, events⟩ :=
    ⟨4, hrun, Ending.isFinal_failed _⟩
  have hends' : m'.Ends rep := ⟨6, hrun', by rw [hending]; exact Ending.isFinal_completed⟩
  obtain ⟨m'', hm''⟩ : ∃ m, Machine.new [⟨.scan, 1⟩, ⟨.print, 1⟩, ⟨.scan, 1⟩, ⟨.print, 1⟩]
    { chunkSize := 1, engineName := Engine.batch.name } { pending := [65, 66, 67] } {} = .ok m :=
    ⟨_, rfl⟩
  obtain ⟨hpending, hconsumed, hcontinues⟩ := (nothing_read_ahead [66] hm hm').2 _ s events hends
  obtain ⟨rep', hends'', hending', hstate⟩ := (nothing_read_ahead [67] hm' hm'').1 rep hends'
    (by simp [hending])
  exact ⟨m, m', m'', s, events, rep, rep', hm, hm', hm'', hends, hwritten, hpending, hconsumed,
    hcontinues, hends', hending, hends'', hending'.trans hending, hstate⟩

end TapeLang
