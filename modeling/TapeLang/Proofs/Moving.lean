import TapeLang.Proofs.Growing
import TapeLang.Proofs.Loops

/-!
# Moves and their loops

On a cell that is not zero, a loop that moves its cell does what the one instruction does that
replaces it, down to the length of the tape (`move_does_loop`): each round leaves what the move
would do (`View.transfer_moved`), and the tape has grown up to the target in the first round. One of
them stops at a checked result if and only if the other does, though not always at the same one.
-/

set_option autoImplicit false

namespace TapeLang

/-- The error of a checked result that is no byte. -/
def RunError.IsOverflow (e : RunError) : Prop :=
  ∃ cell value place, e = .cellOverflow cell value place

/-- Tapes of one length grow by the same and in the same memory. -/
structure State.GrowsLike (t s : State) : Prop where
  chunkSize : t.tape.chunkSize = s.tape.chunkSize
  memory : t.memory = s.memory

namespace State.GrowsLike

variable {s t u : State} (h : t.GrowsLike s)
include h

theorem trans (h' : u.GrowsLike t) : u.GrowsLike s :=
  ⟨h'.chunkSize.trans h.chunkSize, h'.memory.trans h.memory⟩

theorem refusal?_eq (hsize : t.tape.size = s.tape.size) (target : Int) :
    t.tape.refusal? t.memory target = s.tape.refusal? s.memory target := by
  rw [h.memory, Tape.refusal?, Tape.refusal?, Tape.growth, Tape.growth, h.chunkSize, hsize]

end State.GrowsLike

namespace Stepwise

open Walk (after after_succ after_trans)

section
variable (program : Array Instruction) (options : Options)

/-- After a number of steps the run is at an index, with a view and a tape of a length. -/
def Leads (n : Nat) (c : Int × State) (index : Nat) (w : View) (size : Nat) : Prop :=
  ∃ t : State, after (next? program options) n c = some ((index : Int), t) ∧ t.Inside ∧
    t.view = w ∧ t.GrowsLike c.2 ∧ t.tape.size = size

/-- The run stops with one of some errors. -/
def Stops (p : RunError → Prop) (c : Int × State) : Prop :=
  ∃ n d error s, after (next? program options) n c = some d ∧
    stop? program options d = some (.failed error, s) ∧ p error

end

variable {program : Array Instruction} {options : Options} {s : State} {i : Instruction}
  {c d : Int × State} {n j size : Nat} {w : View} {sign distance : Int} {body : List Instruction}
  {p : RunError → Prop}

theorem Stops.of_after (h : after (next? program options) n c = some d)
    (hd : Stops program options p d) : Stops program options p c := by
  obtain ⟨m, e, error, s, hafter, hstop⟩ := hd
  exact ⟨n + m, e, error, s, by rw [after_trans h, hafter], hstop⟩

/-- A run goes on from wherever it has led. -/
theorem Leads.trans {m k size' : Nat} {w' : View} (h : Leads program options n c j w size)
    (hrest : ∀ t : State, t.Inside → t.view = w → t.GrowsLike c.2 → t.tape.size = size →
      Leads program options m (j, t) k w' size') :
    Leads program options (n + m) c k w' size' := by
  obtain ⟨t, hafter, ht, hview, hlike, hsize⟩ := h
  obtain ⟨u, hafter', hu, hview', hlike', hsize'⟩ := hrest t ht hview hlike hsize
  exact ⟨u, by rw [after_trans hafter, hafter'], hu, hview', hlike.trans hlike', hsize'⟩

theorem Leads.stops (h : Leads program options n c j w size)
    (hrest : ∀ t : State, t.Inside → t.view = w → t.GrowsLike c.2 → t.tape.size = size →
      Stops program options p (j, t)) : Stops program options p c := by
  obtain ⟨t, hafter, ht, hview, hlike, hsize⟩ := h
  exact (hrest t ht hview hlike hsize).of_after hafter

/-! ## Single instructions -/

section
variable (hlimit : options.maxSteps = none) (hi : program[j]? = some i)
include hlimit hi

/-- Without room for the tape that it needs, an instruction stops the run. -/
theorem stops_of_refusal? {error : RoomError} (h : i.refusal? s = some error) :
    Stops program options (· = .noRoom error) (j, s) := by
  refine ⟨0, _, _, s, rfl, ?_, rfl⟩
  rw [stop?, step_of_getElem? hlimit hi, execute_of_refusal? h]
  rfl

variable (hs : s.Inside) (hroom : i.refusal? s = none)
include hs hroom

theorem leads_of_act (hloop : i.kind.isLoop = false)
    (h : s.view.act (!options.allowOverflows) i = some w) :
    Leads program options 1 (j, s) (j + 1) w ((i.target? s).elim s.tape s.tape.extend).size := by
  obtain ⟨t, hexec, ht, hview⟩ := execute_of_act j hloop hs hroom h
  have hstep : step program options j s = .next (j + 1) t := by
    rw [step_of_getElem? hlimit hi, hexec]
  have htouches := touches_of_room hs hroom (!options.allowOverflows) j
  rw [hexec] at htouches
  refine ⟨t, ?_, ht, hview, ⟨htouches.chunkSize, memory_of_execute hexec⟩, htouches.size⟩
  rw [after_succ (next?_of_step (c := (j, s)) hstep), after]
  rfl

/-- An instruction with a result on or behind the tape has no other reason to stop. -/
theorem overflows_of_act (hkind : i.kind = .modify ∨ i.kind = .add ∨ i.kind = .sub)
    (htarget : i.kind.hasTarget → 0 ≤ s.pointer + i.arg)
    (h : s.view.act (!options.allowOverflows) i = none) :
    Stops program options RunError.IsOverflow (j, s) := by
  have hloop : i.kind.isLoop = false := by rcases hkind with h | h | h <;> rw [h] <;> rfl
  obtain ⟨error, t, hexec⟩ := execute_of_act_eq_none j hloop hs h
  have hstop : stop? program options (j, s) = some (.failed error, t) := by
    rw [stop?, step_of_getElem? hlimit hi, hexec]
    rfl
  cases fails_of_execute hs (f := ⟨error, t⟩) hexec with
  | underflow htarget' hneg => exact absurd (htarget htarget') (Int.not_le.mpr hneg)
  | noRoom hrefused =>
    rw [hroom] at hrefused
    cases hrefused
  | overflow => exact ⟨0, _, _, _, rfl, hstop, _, _, _, rfl⟩
  | exhausted hscan => simp [hscan] at hkind
  | unread hscan => simp [hscan] at hkind
  | closed hprint => simp [hprint] at hkind

end

section
variable (hlimit : options.maxSteps = none) (hs : s.Inside)
include hlimit hs

theorem leads_shift {place : Nat} (hi : program[j]? = some ⟨.shift, distance⟩)
    (hp : (place : Int) = s.view.pointer + distance)
    (hroom : s.tape.refusal? s.memory place = none) :
    Leads program options 1 (j, s) (j + 1) { s.view with pointer := place }
      (s.tape.extend place).size := by
  have hact : s.view.act (!options.allowOverflows) ⟨.shift, distance⟩
      = some { s.view with pointer := place } :=
    View.act_shift_eq_some.2 ⟨by omega, by rw [← hp, Int.toNat_natCast]⟩
  have htarget : Instruction.target? ⟨.shift, distance⟩ s = some (place : Int) := by
    rw [hp, ← hs.pointer_eq]
    rfl
  have hlead := leads_of_act hlimit hi hs (by rwa [Instruction.refusal?, htarget]) rfl hact
  rwa [htarget] at hlead

theorem leads_modify {amount : Int} (hi : program[j]? = some ⟨.modify, amount⟩)
    (hbyte : !options.allowOverflows → isByte (s.view.cell.toNat + amount)) :
    Leads program options 1 (j, s) (j + 1)
      (s.view.put s.view.pointer (byteOf (s.view.cell.toNat + amount))) s.tape.size :=
  leads_of_act hlimit hi hs rfl rfl (View.act_modify_eq_some.2 ⟨hbyte, rfl⟩)

theorem overflows_modify {amount : Int} (hi : program[j]? = some ⟨.modify, amount⟩)
    (hbyte : ¬ (!options.allowOverflows → isByte (s.view.cell.toNat + amount))) :
    Stops program options RunError.IsOverflow (j, s) := by
  refine overflows_of_act hlimit hi hs rfl (.inl rfl) (fun h => by cases h) ?_
  cases hact : s.view.act (!options.allowOverflows) ⟨.modify, amount⟩ with
  | none => rfl
  | some w => exact absurd (View.act_modify_eq_some.1 hact).1 hbyte

theorem leads_count (hi : program[j]? = some ⟨.modify, -1⟩) (hcell : s.view.cell ≠ 0) :
    Leads program options 1 (j, s) (j + 1)
      (s.view.put s.view.pointer (byteOf (s.view.cell.toNat + -1))) s.tape.size := by
  refine leads_modify hlimit hs hi fun _ => ?_
  have hlt := s.view.cell.toNat_lt
  have hpos : s.view.cell.toNat ≠ 0 := fun h => hcell (UInt8.toNat_inj.1 h)
  rw [isByte_iff]
  omega

theorem leads_jump {n : Nat} (hi : program[n]? = some ⟨.endLoop, n⟩) :
    Leads program options 1 (n, s) (if s.view.cell = 0 then n + 1 else 1) s.view s.tape.size := by
  have hstep : step program options n s
      = .next ((if s.view.cell = 0 then n + 1 else 1 : Nat) : Int) s.tick := by
    rw [step_of_getElem? hlimit hi, execute_endLoop hs]
    congr 1
    split <;> omega
  refine ⟨s.tick, ?_, hs, rfl, ⟨rfl, rfl⟩, rfl⟩
  rw [after_succ (next?_of_step (c := (n, s)) hstep), after]

theorem leads_enter (hi : program[0]? = some ⟨.beginLoop, distance⟩) (hcell : s.view.cell ≠ 0) :
    Leads program options 1 (0, s) 1 s.view s.tape.size := by
  have hstep : step program options (0 : Nat) s = .next (1 : Nat) s.tick := by
    rw [step_of_getElem? hlimit hi, execute_beginLoop hs, if_neg hcell]
    rfl
  exact ⟨s.tick, after_succ (next?_of_step (c := ((0 : Nat), s)) hstep), hs, rfl, ⟨rfl, rfl⟩, rfl⟩

/-- Going to a distance, changing the cell there and coming back. -/
theorem leads_poke {place : Nat} (h₁ : program[j]? = some ⟨.shift, distance⟩)
    (h₂ : program[j + 1]? = some ⟨.modify, sign⟩)
    (h₃ : program[j + 2]? = some ⟨.shift, -distance⟩)
    (hp : (place : Int) = s.view.pointer + distance)
    (hroom : s.tape.refusal? s.memory place = none)
    (hbyte : !options.allowOverflows → isByte ((s.view.cells place).toNat + sign)) :
    Leads program options 3 (j, s) (j + 3)
      (s.view.put place (byteOf ((s.view.cells place).toNat + sign)))
      (s.tape.extend place).size := by
  have hgo := leads_shift hlimit hs h₁ hp hroom
  have hchange : Leads program options (1 + 1) (j, s) (j + 2)
      (View.put place (byteOf ((s.view.cells place).toNat + sign))
        { s.view with pointer := place }) (s.tape.extend place).size := by
    refine hgo.trans fun t ht hview _ hsize => ?_
    have hmodify := leads_modify hlimit ht h₂ (by rw [hview]; exact hbyte)
    rwa [hview, hsize] at hmodify
  refine hchange.trans (m := 1) fun t ht hview _ hsize => ?_
  have hback : ((s.view.pointer : Nat) : Int) = t.view.pointer + -distance := by
    rw [hview]
    show (s.view.pointer : Int) = place + -distance
    omega
  have hshort : (s.view.pointer : Int) < t.tape.size := by
    have hlt := hs.lt_size
    have hle := s.tape.size_le_extend place
    omega
  have hshift := leads_shift hlimit ht h₃ hback (t.tape.refusal?_of_lt _ _ hshort)
  rw [hview, t.tape.extend_of_lt _ hshort, hsize] at hshift
  exact hshift

/-- The change at the distance is checked wherever it is not a byte. -/
theorem overflows_poke {place : Nat} (h₁ : program[j]? = some ⟨.shift, distance⟩)
    (h₂ : program[j + 1]? = some ⟨.modify, sign⟩)
    (hp : (place : Int) = s.view.pointer + distance)
    (hroom : s.tape.refusal? s.memory place = none)
    (hbyte : ¬ (!options.allowOverflows → isByte ((s.view.cells place).toNat + sign))) :
    Stops program options RunError.IsOverflow (j, s) := by
  refine (leads_shift hlimit hs h₁ hp hroom).stops fun t ht hview _ _ => ?_
  refine overflows_modify hlimit ht h₂ ?_
  rw [hview]
  exact hbyte

end

/-! ## Loops -/

section
variable {place : Nat} (hlimit : options.maxSteps = none)
  (hbody : body = goFirst sign distance ∨ body = countFirst sign distance)
  (hprogram : program = (⟨.beginLoop, 5⟩ :: (body ++ [⟨.endLoop, 5⟩])).toArray)
  (hd : distance ≠ 0) (hs : s.Inside) (hp : (place : Int) = s.view.pointer + distance)
  (hroom : s.tape.refusal? s.memory place = none) (hcell : s.view.cell ≠ 0)
include hlimit hbody hprogram hd hs hp hroom hcell

/-- One round, whichever way it goes. -/
theorem leads_round (hbyte : !options.allowOverflows → isByte ((s.view.cells place).toNat + sign)) :
    Leads program options 5 (1, s) (if (s.view.moved sign place).cell = 0 then 6 else 1)
      (s.view.moved sign place) (s.tape.extend place).size := by
  have hne : place ≠ s.view.pointer := by omega
  have hat (k : Nat) := congrArg (·[k]?) hprogram
  have hround : Leads program options 4 (1, s) 5 (s.view.moved sign place)
      (s.tape.extend place).size := by
    rcases hbody with rfl | rfl
    · have hpoke := leads_poke (j := 1) hlimit hs (hat 1) (hat 2) (hat 3) hp hroom hbyte
      refine hpoke.trans (m := 1) fun t ht hview _ hsize => ?_
      have hsame : t.view.cell = s.view.cell := by
        rw [hview, View.cell, View.cells_put, View.pointer_put, if_neg hne.symm, View.cell]
      have hcount := leads_count (j := 4) hlimit ht (hat 4) (hsame ▸ hcell)
      rw [hsame, hview, hsize] at hcount
      exact hcount
    · have hcount := leads_count (j := 1) hlimit hs (hat 1) hcell
      refine hcount.trans (m := 3) fun t ht hview hlike hsize => ?_
      have hsame : t.view.cells place = s.view.cells place := by
        rw [hview, View.cells_put, if_neg hne]
      have hpoke := leads_poke (j := 2) hlimit ht (hat 2) (hat 3) (hat 4)
        (by rw [hview]; exact hp) ((hlike.refusal?_eq hsize place).trans hroom)
        (by rw [hsame]; exact hbyte)
      rw [hsame, hview, View.put_comm hne.symm, Tape.size_extend_congr hlike.chunkSize hsize]
        at hpoke
      exact hpoke
  refine hround.trans (m := 1) fun t ht hview _ hsize => ?_
  have hend : program[5]? = some ⟨.endLoop, (5 : Nat)⟩ := by
    rcases hbody with rfl | rfl <;> exact hat 5
  have hjump := leads_jump hlimit ht hend
  rw [hview, hsize] at hjump
  exact hjump

theorem overflows_round
    (hbyte : ¬ (!options.allowOverflows → isByte ((s.view.cells place).toNat + sign))) :
    Stops program options RunError.IsOverflow (1, s) := by
  have hne : place ≠ s.view.pointer := by omega
  have hat (k : Nat) := congrArg (·[k]?) hprogram
  rcases hbody with rfl | rfl
  · exact overflows_poke (j := 1) hlimit hs (hat 1) (hat 2) hp hroom hbyte
  · have hcount := leads_count (j := 1) hlimit hs (hat 1) hcell
    refine hcount.stops fun t ht hview hlike hsize => ?_
    have hsame : t.view.cells place = s.view.cells place := by
      rw [hview, View.cells_put, if_neg hne]
    exact overflows_poke (j := 2) hlimit ht (hat 2) (hat 3) (by rw [hview]; exact hp)
      ((hlike.refusal?_eq hsize place).trans hroom) (by rw [hsame]; exact hbyte)

end

section
variable {place : Nat} (hlimit : options.maxSteps = none)
  (hbody : body = goFirst sign distance ∨ body = countFirst sign distance)
  (hprogram : program = (⟨.beginLoop, 5⟩ :: (body ++ [⟨.endLoop, 5⟩])).toArray)
  (hd : distance ≠ 0)
include hlimit hbody hprogram hd

theorem leads_rounds (hsign : sign = 1 ∨ sign = -1) (hs : s.Inside)
    (hp : (place : Int) = s.view.pointer + distance)
    (hroom : s.tape.refusal? s.memory place = none) (hcell : s.view.cell ≠ 0)
    (h : s.view.transfer (!options.allowOverflows) sign distance = some w) :
    Leads program options (5 * s.view.cell.toNat) (1, s) 6 w (s.tape.extend place).size := by
  induction hk : s.view.cell.toNat generalizing s with
  | zero => exact absurd (UInt8.toNat_inj.1 hk) hcell
  | succ k ih =>
    obtain ⟨place', hp', hbyte, -⟩ := View.transfer_eq_some.1 h
    obtain rfl : place' = place := Int.ofNat_inj.1 (hp'.trans hp.symm)
    have hfirst := fun hc => isByte_first hsign hcell (hbyte hc)
    have hround := leads_round hlimit hbody hprogram hd hs hp hroom hcell hfirst
    have hcount := View.toNat_cell_moved sign place' hcell
    rw [← View.transfer_moved hd hcell hp hfirst] at h
    by_cases hzero : (s.view.moved sign place').cell = 0
    · rw [View.transfer_of_cell_eq_zero hzero hp, Option.some.injEq] at h
      rw [hzero, UInt8.toNat_zero] at hcount
      obtain rfl : k = 0 := by omega
      rw [if_pos hzero, h] at hround
      exact hround
    · rw [if_neg hzero] at hround
      rw [Nat.mul_succ, Nat.add_comm]
      refine hround.trans fun t ht hview _ hsize => ?_
      rw [← hview] at h hzero
      have hlong : (place' : Int) < t.tape.size := by
        rw [hsize]
        exact s.tape.lt_size_extend place'
      have hrest := ih ht (by rw [hview]; exact hp) (t.tape.refusal?_of_lt _ _ hlong) hzero h
        (by rw [hview]; omega)
      rw [t.tape.extend_of_lt _ hlong, hsize] at hrest
      exact hrest

theorem overflows_rounds (hs : s.Inside) (hp : (place : Int) = s.view.pointer + distance)
    (hroom : s.tape.refusal? s.memory place = none) (hcell : s.view.cell ≠ 0)
    (h : s.view.transfer (!options.allowOverflows) sign distance = none) :
    Stops program options RunError.IsOverflow (1, s) := by
  induction hk : s.view.cell.toNat generalizing s with
  | zero => exact absurd (UInt8.toNat_inj.1 hk) hcell
  | succ k ih =>
    by_cases hbyte : !options.allowOverflows → isByte ((s.view.cells place).toNat + sign)
    · have hround := leads_round hlimit hbody hprogram hd hs hp hroom hcell hbyte
      have hcount := View.toNat_cell_moved sign place hcell
      rw [← View.transfer_moved hd hcell hp hbyte] at h
      have hmore : (s.view.moved sign place).cell ≠ 0 := by
        intro hzero
        rw [View.transfer_of_cell_eq_zero hzero hp] at h
        cases h
      rw [if_neg hmore] at hround
      refine hround.stops fun t ht hview _ hsize => ?_
      rw [← hview] at h hmore
      have hlong : (place : Int) < t.tape.size := by
        rw [hsize]
        exact s.tape.lt_size_extend place
      exact ih ht (by rw [hview]; exact hp) (t.tape.refusal?_of_lt _ _ hlong) hmore h
        (by rw [hview]; omega)
    · exact overflows_round hlimit hbody hprogram hd hs hp hroom hcell hbyte

/-- **Where the move succeeds, the loop comes to the same**, after one step and five for each count
of the cell. -/
theorem leads_loop (hsign : sign = 1 ∨ sign = -1) (hs : s.Inside)
    (hp : (place : Int) = s.view.pointer + distance)
    (hroom : s.tape.refusal? s.memory place = none) (hcell : s.view.cell ≠ 0)
    (h : s.view.transfer (!options.allowOverflows) sign distance = some w) :
    Leads program options (1 + 5 * s.view.cell.toNat) (0, s) 6 w (s.tape.extend place).size := by
  have hbegin : program[0]? = some ⟨.beginLoop, 5⟩ := congrArg (·[0]?) hprogram
  refine (leads_enter hlimit hs hbegin hcell).trans fun t ht hview hlike hsize => ?_
  rw [← hview] at hp hcell h ⊢
  have hrounds := leads_rounds hlimit hbody hprogram hd hsign ht hp
    ((hlike.refusal?_eq hsize place).trans hroom) hcell h
  rwa [Tape.size_extend_congr hlike.chunkSize hsize] at hrounds

/-- **Where the move stops at a checked result, the loop does.** -/
theorem overflows_loop (hs : s.Inside) (hp : (place : Int) = s.view.pointer + distance)
    (hroom : s.tape.refusal? s.memory place = none) (hcell : s.view.cell ≠ 0)
    (h : s.view.transfer (!options.allowOverflows) sign distance = none) :
    Stops program options RunError.IsOverflow (0, s) := by
  have hbegin : program[0]? = some ⟨.beginLoop, 5⟩ := congrArg (·[0]?) hprogram
  refine (leads_enter hlimit hs hbegin hcell).stops fun t ht hview hlike hsize => ?_
  rw [← hview] at hp hcell h
  exact overflows_rounds hlimit hbody hprogram hd ht hp
    ((hlike.refusal?_eq hsize place).trans hroom) hcell h

omit hd in
/-- **Where there is no room for the target, the loop stops in its first round.** -/
theorem stops_loop {error : RoomError} (hs : s.Inside)
    (hp : (place : Int) = s.view.pointer + distance) (hcell : s.view.cell ≠ 0)
    (h : s.tape.refusal? s.memory place = some error) :
    Stops program options (· = .noRoom error) (0, s) := by
  have hat (k : Nat) := congrArg (·[k]?) hprogram
  have hgo {t : State} (ht : t.Inside) (hpointer : t.view.pointer = s.view.pointer)
      (hlike : t.GrowsLike s) (hsize : t.tape.size = s.tape.size) :
      Instruction.refusal? ⟨.shift, distance⟩ t = some error := by
    rw [Instruction.refusal?_of_hasTarget rfl, ht.pointer_eq, hpointer, ← hp,
      hlike.refusal?_eq hsize, h]
  refine (leads_enter hlimit hs (hat 0) hcell).stops fun t ht hview hlike hsize => ?_
  rcases hbody with rfl | rfl
  · exact stops_of_refusal? (j := 1) hlimit (hat 1) (hgo ht (by rw [hview]) hlike hsize)
  · have hcount := leads_count (j := 1) hlimit ht (hat 1) (by rw [hview]; exact hcell)
    refine hcount.stops fun u hu hview' hlike' hsize' => ?_
    refine stops_of_refusal? (j := 2) hlimit (hat 2) (hgo hu ?_ (hlike.trans hlike') ?_)
    · rw [hview', View.pointer_put, hview]
    · rw [hsize', hsize]

end

end Stepwise

/-! ## Runs -/

theorem Instruction.IsMove.target?_eq {sign distance : Int} {i : Instruction}
    (h : i.IsMove sign distance) (s : State) : i.target? s = some (s.pointer + distance) := by
  rcases h with ⟨-, rfl⟩ | ⟨-, rfl⟩ <;> rfl

/-- The run has stopped at a checked result that is no byte. -/
def Report.Overflows (rep : Report) : Prop :=
  ∃ cell value place, rep.ending = .failed (.cellOverflow cell value place)

namespace Machine

variable {m : Machine} {program : Program} (hengine : m.options.engine = .stepwise)
include hengine

theorem exists_ends_of_leads {n size : Nat} {w : View}
    (h : Stepwise.Leads program.toArray m.options n (0, m.state) program.length w size) :
    ∃ rep, (m.load program).Ends rep ∧ rep.ending = .completed ∧
      rep.state.steps = m.state.steps + n ∧ rep.state.Inside ∧ rep.state.view = w ∧
      rep.state.tape.chunkSize = m.state.tape.chunkSize ∧ rep.state.tape.size = size := by
  obtain ⟨t, hafter, ht, hview, hlike, hsize⟩ := h
  have hstop : Stepwise.stop? program.toArray m.options ((program.length : Int), t)
      = some (.completed, t) := by
    have hdone : Stepwise.step program.toArray m.options program.length t = .done t :=
      Stepwise.step_of_size_le (Nat.le_refl _)
    rw [Stepwise.stop?, hdone]
    rfl
  obtain ⟨events, hends⟩ :=
    (ends_iff (m := m.load program) hengine).2 ⟨n, _, hafter, hstop⟩
  exact ⟨_, hends, rfl, Stepwise.steps_of_after hafter, ht, hview, hlike.chunkSize, hsize⟩

theorem exists_ends_of_stops {p : RunError → Prop}
    (h : Stepwise.Stops program.toArray m.options p (0, m.state)) :
    ∃ rep error, (m.load program).Ends rep ∧ rep.ending = .failed error ∧ p error := by
  obtain ⟨n, d, error, s, hafter, hstop, herror⟩ := h
  obtain ⟨events, hends⟩ := (ends_iff (m := m.load program) hengine).2 ⟨n, d, hafter, hstop⟩
  exact ⟨_, error, hends, rfl, herror⟩

end Machine

theorem Report.not_overflows_of_completed {rep : Report} (h : rep.ending = .completed) :
    ¬ rep.Overflows := by
  rintro ⟨cell, value, place, hover⟩
  rw [h] at hover
  cases hover

theorem Report.not_overflows_of_noRoom {rep : Report} {error : RoomError}
    (h : rep.ending = .failed (.noRoom error)) : ¬ rep.Overflows := by
  rintro ⟨cell, value, place, hover⟩
  rw [h] at hover
  cases hover

/-- **A move does what its loop does**, on a cell that is not zero. Both stop at a checked result or
neither, and both for want of room for the target or neither; if neither, the loop takes one step
and five for each count of the cell, and leaves the pointer and the tape as the move does in one
step. -/
theorem move_does_loop {m : Machine} {sign distance : Int} {body : List Instruction}
    {i : Instruction} (hengine : m.options.engine = .stepwise) (hlimit : m.options.maxSteps = none)
    (hs : m.state.Inside) (hcell : m.state.view.cell ≠ 0) (hd : distance ≠ 0)
    (htarget : 0 ≤ m.state.pointer + distance) (hi : i.IsMove sign distance)
    (hbody : body = goFirst sign distance ∨ body = countFirst sign distance) :
    ∃ rep rep', (m.load (⟨.beginLoop, 5⟩ :: (body ++ [⟨.endLoop, 5⟩]))).Ends rep ∧
      (m.load [i]).Ends rep' ∧ (rep.Overflows ↔ rep'.Overflows) ∧
      (∀ error, m.state.tape.refusal? m.state.memory (m.state.pointer + distance) = some error →
        rep.ending = .failed (.noRoom error) ∧ rep'.ending = .failed (.noRoom error)) ∧
      (m.state.tape.refusal? m.state.memory (m.state.pointer + distance) = none →
        ¬ rep.Overflows → rep.ending = .completed ∧ rep'.ending = .completed ∧
          rep.state.steps = m.state.steps + (1 + 5 * m.state.view.cell.toNat) ∧
          rep'.state.steps = m.state.steps + 1 ∧ rep.state.pointer = rep'.state.pointer ∧
          rep.state.tape = rep'.state.tape) := by
  obtain ⟨place, hplace⟩ := Int.eq_ofNat_of_zero_le htarget
  have hp : (place : Int) = m.state.view.pointer + distance := by rw [← hplace, hs.pointer_eq]
  have hfused : [i].toArray[0]? = some i := rfl
  have hkind : i.kind.isLoop = false := by rcases hi.kind_eq with h | h <;> rw [h] <;> rfl
  have hact := hi.act_eq (!m.options.allowOverflows) m.state.view
  have hlength : (⟨.beginLoop, 5⟩ :: (body ++ [⟨.endLoop, 5⟩]) : Program).length = 6 := by
    rcases hbody with rfl | rfl <;> rfl
  have hrefusal : i.refusal? m.state
      = m.state.tape.refusal? m.state.memory (m.state.pointer + distance) := by
    rw [Instruction.refusal?, hi.target?_eq, Option.bind_some]
  cases hroom : m.state.tape.refusal? m.state.memory (m.state.pointer + distance) with
  | some error =>
    have hstop := Stepwise.stops_loop hlimit hbody rfl hs hp hcell (hplace ▸ hroom)
    have hstop' := Stepwise.stops_of_refusal? (j := 0) hlimit hfused (hrefusal.trans hroom)
    obtain ⟨rep, _, hends, hending, rfl⟩ := Machine.exists_ends_of_stops hengine hstop
    obtain ⟨rep', _, hends', hending', rfl⟩ := Machine.exists_ends_of_stops hengine hstop'
    refine ⟨rep, rep', hends, hends', ?_, fun _ herror => ?_, fun hnone => by cases hnone⟩
    · exact iff_of_false (Report.not_overflows_of_noRoom hending)
        (Report.not_overflows_of_noRoom hending')
    · cases herror
      exact ⟨hending, hending'⟩
  | none =>
    have hroom' : m.state.tape.refusal? m.state.memory place = none := hplace ▸ hroom
    cases htransfer : m.state.view.transfer (!m.options.allowOverflows) sign distance with
    | some w =>
      have hloop := Stepwise.leads_loop hlimit hbody rfl hd hi.sign_eq hs hp hroom' hcell htransfer
      have hmove := Stepwise.leads_of_act hlimit hfused hs (hrefusal.trans hroom) hkind
        (hact.trans htransfer)
      rw [hi.target?_eq, hplace] at hmove
      rw [← hlength] at hloop
      obtain ⟨rep, hends, hdone, hsteps, hin, hview, hchunk, hsize⟩ :=
        Machine.exists_ends_of_leads hengine hloop
      obtain ⟨rep', hends', hdone', hsteps', hin', hview', hchunk', hsize'⟩ :=
        Machine.exists_ends_of_leads hengine hmove
      have hsame := hview.trans hview'.symm
      have hover := Report.not_overflows_of_completed hdone
      have hover' := Report.not_overflows_of_completed hdone'
      refine ⟨rep, rep', hends, hends', iff_of_false hover hover', fun _ h => (by cases h),
        fun _ _ => ⟨hdone, hdone', hsteps, hsteps', ?_, ?_⟩⟩
      · rw [hin.pointer_eq, hin'.pointer_eq, hsame]
      · exact Tape.eq_of_get (hchunk.trans hchunk'.symm) (hsize.trans hsize'.symm)
          fun place => congrFun (congrArg View.cells hsame) place
    | none =>
      have hstop := Stepwise.overflows_loop hlimit hbody rfl hd hs hp hroom' hcell htransfer
      have hstop' := Stepwise.overflows_of_act hlimit hfused hs (hrefusal.trans hroom)
        (.inr hi.kind_eq) (fun _ => by rw [hi.arg_eq]; exact htarget) (hact.trans htransfer)
      obtain ⟨rep, _, hends, hending, cell, value, at_, rfl⟩ :=
        Machine.exists_ends_of_stops hengine hstop
      obtain ⟨rep', _, hends', hending', cell', value', at_', rfl⟩ :=
        Machine.exists_ends_of_stops hengine hstop'
      have hover : rep.Overflows := ⟨cell, value, at_, hending⟩
      have hover' : rep'.Overflows := ⟨cell', value', at_', hending'⟩
      exact ⟨rep, rep', hends, hends', iff_of_true hover hover', fun _ h => (by cases h),
        fun _ h => absurd hover h⟩

/-- A checked cell is moved behind the tape, counting down first, in a memory with room for that. -/
theorem move_does_loop_growth :
    let m : Machine := ⟨#[], { allowOverflows := false, chunkSize := 2 },
      { tape := (Tape.blank 2 (by decide)).set 0 3, input := {}, output := {}, memory := ⟨some 6⟩ }⟩
    m.state.Inside ∧ m.state.view.cell = 3 ∧ m.state.tape.refusal? m.state.memory 5 = none ∧
    ∃ rep rep', (m.load [⟨.beginLoop, 5⟩, ⟨.modify, -1⟩, ⟨.shift, 5⟩, ⟨.modify, 1⟩, ⟨.shift, -5⟩,
        ⟨.endLoop, 5⟩]).Ends rep ∧
      (m.load [⟨.add, 5⟩]).Ends rep' ∧ (rep.Overflows ↔ rep'.Overflows) ∧
      (¬ rep.Overflows → rep.ending = .completed ∧ rep'.ending = .completed ∧
        rep.state.steps = 0 + (1 + 5 * 3) ∧ rep'.state.steps = 0 + 1 ∧
        rep.state.pointer = rep'.state.pointer ∧ rep.state.tape = rep'.state.tape) := by
  intro m
  have hs : m.state.Inside := ⟨by decide, by decide⟩
  have hcell : m.state.view.cell = 3 := by decide
  have hroom : m.state.tape.refusal? m.state.memory (m.state.pointer + 5) = none := by decide
  have hmoves : Instruction.IsMove 1 5 ⟨.add, 5⟩ := .inl ⟨rfl, rfl⟩
  obtain ⟨rep, rep', hends, hends', hover, -, hsame⟩ := move_does_loop (m := m) rfl rfl hs
    (by rw [hcell]; decide) (by decide) (by decide) hmoves (.inr rfl)
  rw [hcell] at hsame
  exact ⟨hs, hcell, hroom, rep, rep', hends, hends', hover, hsame hroom⟩

end TapeLang
