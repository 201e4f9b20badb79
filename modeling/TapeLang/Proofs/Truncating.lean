import TapeLang.Proofs.Reading

/-!
# Output that is cut off

With a sink that holds only so many bytes (`State.capped`), a machine makes the same of every
instruction until a print has more to write than there is room for (`Walk.Caps`). That print fills
the sink and the run ends, with all but the output as the print has found it. So the sink holds the
first bytes of what the run writes without a limit, wherever in a print they come to an end
(`limited_output_cuts`).
-/

set_option autoImplicit false

namespace TapeLang

open Batch (Resumption)

variable {limit : Nat}

/-! ## Sinks with a limit -/

namespace Output

/-- The sink with a limit. -/
def capped (limit : Nat) (output : Output) : Output := { output with limit := some limit }

theorem putMany_of_unlimited {output : Output} (h : output.limit = none) (byte : UInt8)
    (count : Nat) :
    output.putMany byte count
      = ({ output with written := output.written ++ Array.replicate count byte }, true) := by
  induction count generalizing output with
  | zero => simp [putMany]
  | succ count ih =>
    have hfull : output.isFull = false := by simp [isFull, h]
    have hrest := @ih { output with written := output.written.push byte } h
    rw [putMany, if_neg (by simp [hfull]), hrest, Array.push_eq_append, Array.append_assoc,
      ← Array.replicate_succ']

/-- As many copies are written as there is room for. -/
theorem putMany_capped {output : Output} (h : output.written.size ≤ limit) (byte : UInt8)
    (count : Nat) :
    (output.capped limit).putMany byte count
      = ({ written := output.written
             ++ Array.replicate (min count (limit - output.written.size)) byte,
           limit := some limit },
         decide (output.written.size + count ≤ limit)) := by
  induction count generalizing output with
  | zero => simp [putMany, capped, h]
  | succ count ih =>
    rw [putMany]
    by_cases hfull : limit ≤ output.written.size
    · have hroom : limit - output.written.size = 0 := by omega
      have hover : ¬ output.written.size + (count + 1) ≤ limit := by omega
      rw [if_pos (by simp [isFull, capped, hfull]), hroom]
      simp [capped, hover]
    · have hsize : (output.written.push byte).size = output.written.size + 1 := Array.size_push ..
      have hrest := @ih { output with written := output.written.push byte }
        (show (output.written.push byte).size ≤ limit by omega)
      have hroom : min (count + 1) (limit - output.written.size)
          = min count (limit - (output.written.size + 1)) + 1 := by omega
      have hover : output.written.size + (count + 1) = output.written.size + 1 + count := by omega
      simp only [hsize] at hrest
      rw [if_neg (by simp [isFull, capped, hfull]), hroom, hover, Array.replicate_succ',
        ← Array.append_assoc, ← Array.push_eq_append]
      exact hrest

end Output

/-- The state with a limit on its output. -/
def State.capped (limit : Nat) (s : State) : State := { s with output := s.output.capped limit }

theorem Batch.Resumption.state_map (change : State → State) (x : Resumption) :
    (x.map change).state = change x.state := by
  cases x <;> rfl

namespace State

variable {s : State} {count : Int}

theorem print_of_unlimited (hs : s.Inside) (h : s.output.limit = none) :
    s.print count = .ok { s with output := { s.output with
      written := s.output.written ++ Array.replicate count.toNat s.view.cell } } := by
  unfold print
  rw [hs.get?_eq]
  simp only [Output.putMany_of_unlimited h, ↓reduceIte]

/-- There is room for all that a print writes. -/
theorem print_capped_of_le (hs : s.Inside) (h : s.output.limit = none)
    (hroom : s.output.written.size + count.toNat ≤ limit) :
    (s.capped limit).print count = mapEffect (capped limit) (s.print count) := by
  have hsize : s.output.written.size ≤ limit := by omega
  have hall : min count.toNat (limit - s.output.written.size) = count.toNat := by omega
  rw [print_of_unlimited hs h, print, show (s.capped limit).tape.get? (s.capped limit).pointer = _
    from hs.get?_eq]
  simp only [show (s.capped limit).output = s.output.capped limit from rfl,
    Output.putMany_capped hsize, hall, hroom, decide_true, ↓reduceIte]
  rfl

/-- A print for which there is not enough room. -/
theorem print_capped_of_lt (hs : s.Inside) (hsize : s.output.written.size ≤ limit)
    (hroom : limit < s.output.written.size + count.toNat) :
    (s.capped limit).print count = .error ⟨.pipeClosed, { s with output :=
      { written := s.output.written
          ++ Array.replicate (limit - s.output.written.size) s.view.cell,
        limit := some limit } }⟩ := by
  have hpart : min count.toNat (limit - s.output.written.size) = limit - s.output.written.size := by
    omega
  rw [print, show (s.capped limit).tape.get? (s.capped limit).pointer = _ from hs.get?_eq]
  simp only [show (s.capped limit).output = s.output.capped limit from rfl,
    Output.putMany_capped hsize, hpart, Nat.not_le.mpr hroom, decide_false, Bool.false_eq_true,
    ↓reduceIte]
  rfl

end State

/-! ## Moves -/

/-- What a limit on the output makes of a move: the same move, as long as there is room, and else a
print that fills the sink. -/
inductive Walk.Caps (limit : Nat) (code : Array Instruction) (c : Int × State) :
    Resumption → Resumption → Prop
  | fits {x : Resumption} : x.state.output.written.size ≤ limit →
      Caps limit code c x (x.map (.capped limit))
  | breaks {x : Resumption} {i : Instruction} {output : Output} :
      Batch.fetch? code c.1 = some i → i.kind = .print →
      limit < c.2.output.written.size + i.arg → limit < x.state.output.written.size →
      output.written.toList = x.state.output.written.toList.take limit →
      Caps limit code c x (.ended (.failed .pipeClosed) { c.2 with output })

section
variable {s : State} {i : Instruction} {index : Int} (hs : s.Inside)
  (hlimit : s.output.limit = none)
include hs hlimit

/-- What a print leaves in a sink without a limit. -/
theorem output_of_print :
    (Batch.resumeAfter index (s.print i.arg)).state.output = { s.output with
      written := s.output.written ++ Array.replicate i.arg.toNat s.view.cell } := by
  rw [State.print_of_unlimited hs hlimit]
  rfl

theorem caps_print {code : Array Instruction} (hi : Batch.fetch? code index = some i)
    (hkind : i.kind = .print) (hsize : s.output.written.size ≤ limit) :
    Walk.Caps limit code (index, s) (Batch.resumeAfter index (s.print i.arg))
      (Batch.resumeAfter index ((s.capped limit).print i.arg)) := by
  have houtput := @output_of_print s i index hs hlimit
  have hwritten : (Batch.resumeAfter index (s.print i.arg)).state.output.written.size
      = s.output.written.size + i.arg.toNat := by
    rw [houtput]
    simp
  by_cases hroom : s.output.written.size + i.arg.toNat ≤ limit
  · have hsame : Batch.resumeAfter index ((s.capped limit).print i.arg)
        = (Batch.resumeAfter index (s.print i.arg)).map (.capped limit) := by
      rw [State.print_capped_of_le hs hlimit hroom, State.print_of_unlimited hs hlimit]
      rfl
    rw [hsame]
    exact .fits (by omega)
  · have hover := Nat.not_le.mp hroom
    have hpart : min (limit - s.output.written.size) i.arg.toNat
        = limit - s.output.written.size := by omega
    rw [State.print_capped_of_lt hs hsize hover]
    refine .breaks hi hkind (by simp only; omega) (by omega) ?_
    rw [houtput, Array.toList_append, Array.toList_append, Array.toList_replicate,
      Array.toList_replicate, List.take_append, Array.length_toList, List.take_replicate, hpart,
      List.take_of_length_le hsize]

end

namespace Machine

variable {m : Machine} {c d : Int × State} {n : Nat} {ending : Ending} {s : State}

/-- **A limit makes a difference only to a print that goes beyond it**, on either engine. -/
theorem caps_take (h : m.Fits c) (hlimit : c.2.output.limit = none)
    (hsize : c.2.output.written.size ≤ limit) :
    (m.take c).state.output.limit = none ∧
      Walk.Caps limit m.program c (m.take c) (m.take (c.1, c.2.capped limit)) := by
  cases notices_take h with
  | silent hg =>
    have hmove : m.take (c.1, c.2.capped limit) = (m.take c).map (.capped limit) :=
      hg (.capped limit)
    have hsame : m.take c = (m.take c).map (.onStreams id fun _ => c.2.output) :=
      hg fun _ => c.2.output
    have houtput : (m.take c).state.output = c.2.output := by
      rw [hsame, Resumption.state_map]
    rw [hmove, houtput]
    exact ⟨hlimit, .fits (by rw [houtput]; exact hsize)⟩
  | @prints i hi hkind hg =>
    have hmove : m.take c = Batch.resumeAfter c.1 (c.2.print i.arg) := hg id
    have hcapped : m.take (c.1, c.2.capped limit)
        = Batch.resumeAfter c.1 ((c.2.capped limit).print i.arg) := hg (.capped limit)
    rw [hmove, hcapped, output_of_print h.inside hlimit]
    exact ⟨hlimit, caps_print h.inside hlimit hi hkind hsize⟩

/-- A machine with limited output goes where the other one does, as long as there is room. -/
theorem after_capped (h : m.Fits c) (hlimit : c.2.output.limit = none)
    (hafter : Walk.after (Walk.next? m.take) n c = some d)
    (hsize : d.2.output.written.size ≤ limit) :
    d.2.output.limit = none ∧
      Walk.after (Walk.next? m.take) n (c.1, c.2.capped limit) = some (d.1, d.2.capped limit) := by
  induction n generalizing c with
  | zero =>
    cases hafter
    exact ⟨hlimit, rfl⟩
  | succ n ih =>
    have hwritten := (m.streams_take.after hafter).written.length_le
    rw [Array.length_toList, Array.length_toList] at hwritten
    obtain ⟨hkeeps, hcaps⟩ := caps_take h hlimit (hwritten.trans hsize)
    obtain ⟨index, s, htake, hafter⟩ := Walk.exists_first_move hafter
    rw [htake] at hkeeps hcaps
    have hrest := (m.streams_take.after hafter).written.length_le
    rw [Array.length_toList, Array.length_toList] at hrest
    generalize hmove : m.take (c.1, c.2.capped limit) = x at hcaps
    cases hcaps with
    | fits =>
      rw [Walk.after_of_resume hmove]
      exact ih (counts_take h htake).1 hkeeps hafter
    | breaks _ _ _ hover => exact absurd (hrest.trans hsize) (Nat.not_le.mpr hover)

/-- A run that writes more than there is room for comes to the instruction that does. -/
theorem exists_break (hend : Walk.Ends m.take n c ending s)
    (hsize : c.2.output.written.size ≤ limit) (hover : limit < s.output.written.size) :
    ∃ k d, Walk.after (Walk.next? m.take) k c = some d ∧ d.2.output.written.size ≤ limit ∧
      limit < (m.take d).state.output.written.size ∧
      (m.take d).state.output.written.toList <+: s.output.written.toList := by
  induction n generalizing c with
  | zero =>
    obtain ⟨d, hd, hstop⟩ := hend
    cases hd
    refine ⟨0, c, rfl, hsize, ?_, ?_⟩
    · rw [hstop]
      exact hover
    · rw [hstop]
      exact List.prefix_rfl
  | succ n ih =>
    obtain ⟨d, hd, hstop⟩ := hend
    obtain ⟨index, t, htake, hd⟩ := Walk.exists_first_move hd
    have hrest : Walk.Ends m.take n (index, t) ending s := ⟨d, hd, hstop⟩
    by_cases hnext : t.output.written.size ≤ limit
    · obtain ⟨k, e, he, hbreak⟩ := ih hrest hnext
      exact ⟨k + 1, e, by rw [Walk.after_of_resume htake, he], hbreak⟩
    · refine ⟨0, c, rfl, hsize, ?_, ?_⟩
      · rw [htake]
        exact Nat.not_le.mp hnext
      · rw [htake]
        exact (m.streams_take.ends hrest).written

/-- A run that has room for all that it writes ends as without a limit. -/
theorem ends_capped_of_le (h : m.Fits c) (hlimit : c.2.output.limit = none)
    (hend : Walk.Ends m.take n c ending s) (hsize : s.output.written.size ≤ limit) :
    Walk.Ends m.take n (c.1, c.2.capped limit) ending (s.capped limit) := by
  obtain ⟨d, hd, hstop⟩ := hend
  have hlast := (m.streams_take d).written.length_le
  rw [hstop, Array.length_toList, Array.length_toList] at hlast
  replace hlast : d.2.output.written.size ≤ limit := hlast.trans hsize
  obtain ⟨hnone, hafter⟩ := after_capped h hlimit hd hlast
  have hfits : m.Fits d := Walk.keeps_of_moves (fun he hmove => (counts_take he hmove).1) h hd
  obtain ⟨-, hcaps⟩ := caps_take hfits
    hnone hlast
  refine ⟨_, hafter, ?_⟩
  rw [hstop] at hcaps
  generalize m.take (d.1, d.2.capped limit) = x at hcaps
  cases hcaps with
  | fits => rfl
  | breaks _ _ _ hover => exact absurd hsize (Nat.not_le.mpr hover)

/-- A run that has not ends at the print for which the room is not enough. -/
theorem ends_capped_of_lt (h : m.Fits c) (hlimit : c.2.output.limit = none)
    (hsize : c.2.output.written.size ≤ limit) (hend : Walk.Ends m.take n c ending s)
    (hover : limit < s.output.written.size) :
    ∃ k d i output, Walk.after (Walk.next? m.take) k c = some d ∧
      Batch.fetch? m.program d.1 = some i ∧
      i.kind = .print ∧ d.2.output.written.size ≤ limit ∧
      limit < d.2.output.written.size + i.arg ∧
      output.written.toList = s.output.written.toList.take limit ∧
      Walk.Ends m.take k (c.1, c.2.capped limit) (.failed .pipeClosed) { d.2 with output } := by
  obtain ⟨k, d, hd, hroom, hbreak, rest, hrest⟩ := exists_break hend hsize hover
  obtain ⟨hnone, hafter⟩ := after_capped h hlimit hd hroom
  have hfits : m.Fits d := Walk.keeps_of_moves (fun he hmove => (counts_take he hmove).1) h hd
  obtain ⟨-, hcaps⟩ := caps_take hfits
    hnone hroom
  generalize hmove : m.take (d.1, d.2.capped limit) = x at hcaps
  cases hcaps with
  | fits hfits => exact absurd hfits (Nat.not_le.mpr hbreak)
  | @breaks i output hi hkind harg _ houtput =>
    refine ⟨k, d, i, output, hd, hi, hkind, hroom, harg, ?_, _, hafter, hmove⟩
    rw [houtput, ← hrest, List.take_append_of_le_length]
    rw [Array.length_toList]
    exact hbreak.le

/-- The machine with a limit on its output. -/
def capped (limit : Nat) (m : Machine) : Machine := { m with state := m.state.capped limit }

theorem new_capped {program : Program} {options : Options} {input : Input} {output : Output}
    {memory : Memory} (hm : Machine.new program options input output memory = .ok m) :
    Machine.new program options input (output.capped limit) memory = .ok (m.capped limit) :=
  new_onStreams (f := id) (g := .capped limit) hm

end Machine

/-- **A sink that fails only cuts the output off**, on either engine. A run without a limit has
written so many bytes; with a limit they are cut off at it. If they fit, nothing else changes; if
not, the run has stopped at the print of the first byte that does not, and left all but the output
as that print has found it. -/
theorem limited_output_cuts {program : Program} {options : Options} {input : Input}
    {memory : Memory} {limit : Nat} {m m' : Machine} {rep : Report}
    (hm : Machine.new program options input {} memory = .ok m)
    (hm' : Machine.new program options input { limit := some limit } memory = .ok m')
    (h : m.Ends rep) :
    ∃ rep', m'.Ends rep' ∧
      rep'.state.output.written.toList = rep.state.output.written.toList.take limit ∧
      (rep.state.output.written.size ≤ limit →
        rep'.ending = rep.ending ∧ rep'.state = rep.state.capped limit) ∧
      (limit < rep.state.output.written.size →
        rep'.ending = .failed .pipeClosed ∧
        ∃ index s i, m.after rep'.state.steps = some (index, s) ∧
          Batch.fetch? program.toArray index = some i ∧ i.kind = .print ∧
          s.output.written.size ≤ limit ∧ limit < s.output.written.size + i.arg ∧
          rep'.state = { s with output := rep'.state.output }) := by
  obtain rfl : m.capped limit = m' := Except.ok.inj ((Machine.new_capped hm).symm.trans hm')
  obtain ⟨hprogram, -⟩ := Machine.new_eq_ok hm
  obtain ⟨_, hstate⟩ := Machine.state_of_new hm
  have hfits := Machine.fits_of_new hm
  have hfits' := Machine.fits_of_new hm'
  obtain ⟨ending, s, events⟩ := rep
  obtain ⟨n, hend⟩ := (Machine.ends_iff_walk hfits).1 ⟨events, h⟩
  have hlimit : m.state.output.limit = none := by rw [hstate]
  have hsize : m.state.output.written.size ≤ limit := by rw [hstate]; exact Nat.zero_le limit
  by_cases hfit : s.output.written.size ≤ limit
  · obtain ⟨events', h'⟩ := (Machine.ends_iff_walk hfits').2
      ⟨n, Machine.ends_capped_of_le hfits hlimit hend hfit⟩
    refine ⟨_, h', ?_, fun _ => ⟨rfl, rfl⟩, fun hover => absurd hfit (Nat.not_le.mpr hover)⟩
    exact (List.take_of_length_le hfit).symm
  · obtain ⟨k, ⟨index, t⟩, i, output, hafter, hi, hkind, hroom, harg, hwritten, hend'⟩ :=
      Machine.ends_capped_of_lt hfits hlimit hsize hend (Nat.not_le.mp hfit)
    obtain ⟨events', h'⟩ := (Machine.ends_iff_walk hfits').2 ⟨k, hend'⟩
    refine ⟨_, h', hwritten, fun hle => absurd hle hfit, fun _ => ⟨rfl, index, t, i, ?_, ?_⟩⟩
    · rw [show t.steps = k from Machine.steps_of_after hm hafter]
      exact hafter
    · rw [← hprogram]
      exact ⟨hi, hkind, hroom, harg, rfl⟩

/-- A byte is to be written three times, and there is room for two, on either engine. -/
theorem limited_output_cuts_print :
    ∃ program : Program, ∀ engine : Engine, ∃ m m' rep rep',
      Machine.new program { chunkSize := 1, engineName := engine.name } {} {} = .ok m ∧
      Machine.new program { chunkSize := 1, engineName := engine.name } {} { limit := some 2 }
        = .ok m' ∧
      m.Ends rep ∧ rep.ending = .completed ∧ rep.state.output.written.toList = [65, 65, 65] ∧
      m'.Ends rep' ∧ rep'.ending = .failed .pipeClosed ∧
      rep'.state.output.written.toList = [65, 65] ∧
      ∃ index s i, m.after rep'.state.steps = some (index, s) ∧
        Batch.fetch? program.toArray index = some i ∧ i.kind = .print ∧
        s.output.written.size ≤ 2 ∧ 2 < s.output.written.size + i.arg ∧
        rep'.state = { s with output := rep'.state.output } := by
  refine ⟨[⟨.modify, 65⟩, ⟨.print, 3⟩], fun engine => ?_⟩
  have hnew : ∃ m m' rep, Machine.new [⟨.modify, 65⟩, ⟨.print, 3⟩]
      { chunkSize := 1, engineName := engine.name } {} {} = .ok m ∧
    Machine.new [⟨.modify, 65⟩, ⟨.print, 3⟩]
      { chunkSize := 1, engineName := engine.name } {} { limit := some 2 } = .ok m' ∧
    m.runFor 4 = rep ∧ rep.ending = .completed ∧
    rep.state.output.written.toList = [65, 65, 65] := by
    cases engine <;> exact ⟨_, _, _, rfl, rfl, rfl, rfl, rfl⟩
  obtain ⟨m, m', rep, hm, hm', hrun, hending, hwritten⟩ := hnew
  have hends : m.Ends rep := ⟨4, hrun, by rw [hending]; exact Ending.isFinal_completed⟩
  obtain ⟨rep', hends', hcut, -, hbreak⟩ := limited_output_cuts hm hm' hends
  have hover : 2 < rep.state.output.written.size := by
    rw [← Array.length_toList, hwritten]
    decide
  obtain ⟨hclosed, hplace⟩ := hbreak hover
  rw [hwritten] at hcut
  exact ⟨m, m', rep, rep', hm, hm', hends, hending, hwritten, hends', hclosed, hcut, hplace⟩

end TapeLang
