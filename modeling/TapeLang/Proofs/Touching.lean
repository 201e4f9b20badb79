import TapeLang.Proofs.Failing

/-!
# Touched cells

An instruction touches the current cell and its target, and no other: the tape grows up to the
target if there is room, and is as it was if there is none (`Stepwise.touches_execute`). So the
sizes of the tapes in a run are told by the targets alone.
-/

set_option autoImplicit false

namespace TapeLang

/-! ## Tapes -/

namespace Tape

/-- One tape comes of another by an instruction with the pointer at an index and perhaps with a
target: the tape has grown up to the target, and no other cell than these two has changed. -/
structure Touches (pointer : Int) (target? : Option Int) (t u : Tape) : Prop where
  chunkSize : u.chunkSize = t.chunkSize
  size : u.size = (target?.elim t t.extend).size
  cells : ∀ place : Nat, (place : Int) ≠ pointer → target? ≠ some (place : Int) →
    u.get place = t.get place

namespace Touches

variable {pointer : Int} {target? : Option Int} {t u : Tape}

theorem refl (pointer : Int) (t : Tape) : Touches pointer none t t := ⟨rfl, rfl, fun _ _ _ => rfl⟩

theorem extend (pointer target : Int) (t : Tape) :
    Touches pointer (some target) t (t.extend target) :=
  ⟨t.chunkSize_extend target, rfl, fun _ _ _ => get_extend target⟩

/-- A target left of the first cell is not on any tape. -/
theorem of_neg {target : Int} (h : target < 0) (pointer : Int) (t : Tape) :
    Touches pointer (some target) t t := by
  have hextend := extend pointer target t
  rwa [t.extend_of_lt target (by omega)] at hextend

/-- Writing the current cell or the target touches nothing else. -/
theorem set (h : Touches pointer target? t u) {index : Int} (value : UInt8) (h₀ : 0 ≤ index)
    (hlt : index < u.size) (hindex : index = pointer ∨ target? = some index) :
    Touches pointer target? t (u.set index value) := by
  obtain ⟨place, rfl⟩ := Int.eq_ofNat_of_zero_le h₀
  refine ⟨by rw [chunkSize_set, h.chunkSize], by rw [size_set, h.size], fun k hk hk' => ?_⟩
  have hne : k ≠ place := by
    rintro rfl
    rcases hindex with rfl | htarget
    · exact hk rfl
    · exact hk' htarget
  rw [get_set value (Int.ofNat_lt.mp hlt), if_neg hne]
  exact h.cells k hk hk'

theorem size_le (h : Touches pointer target? t u) : t.size ≤ u.size := by
  rw [h.size]
  cases target? with
  | none => exact Nat.le_refl _
  | some target => exact t.size_le_extend target

end Touches

end Tape

/-! ## Instructions -/

/-- There is room for the tape up to a target. -/
def State.admits (s : State) (target : Int) : Bool := (s.tape.refusal? s.memory target).isNone

namespace State

variable {s : State} {checked : Bool} {amount distance sign index count : Int} {value : UInt8}

/-- The tape that an effect leaves, whether it succeeds or fails, has been touched only where the
effect was to. -/
def Touched (s : State) (target? : Option Int) (effect : Except Failure State) : Prop :=
  s.tape.Touches s.pointer target? (leftBy effect).tape

theorem touched_store (hs : s.Inside) : s.Touched none (s.store value) := by
  unfold store
  rw [hs.get?_eq]
  exact (Tape.Touches.refl _ _).set value hs.1 hs.2 (.inl rfl)

theorem touched_modify (hs : s.Inside) : s.Touched none (s.modify checked amount index) := by
  unfold modify
  rw [hs.get?_eq]
  simp only
  split
  · exact .refl _ _
  · exact (Tape.Touches.refl _ _).set _ hs.1 hs.2 (.inl rfl)

section
variable (hroom : s.tape.refusal? s.memory (s.pointer + distance) = none)
include hroom

theorem touched_shift : s.Touched (some (s.pointer + distance)) (s.shift distance index) := by
  simp only [shift, reach_eq_ok hroom]
  split
  · rename_i hneg
    exact .of_neg hneg _ _
  · exact .extend _ _ _

theorem touched_transfer (hs : s.Inside) :
    s.Touched (some (s.pointer + distance)) (s.transfer checked sign distance index) := by
  have hgrown := Tape.Touches.extend s.pointer (s.pointer + distance) s.tape
  by_cases hneg : s.pointer + distance < 0
  · simp only [transfer, if_pos hneg]
    exact .of_neg hneg _ _
  · have hnonneg := Int.not_lt.mp hneg
    rw [transfer_of_nonneg hroom hs hnonneg]
    simp only
    split
    · exact hgrown
    · have htarget := hgrown.set (byteOf (s.view.sum sign distance)) hnonneg
        (s.tape.lt_size_extend _) (.inr rfl)
      refine htarget.set 0 hs.1 ?_ (.inl rfl)
      rw [Tape.size_set]
      exact (hs.extend _).2

end

theorem touched_print (hs : s.Inside) : s.Touched none (s.print count) := by
  unfold print
  rw [hs.get?_eq]
  simp only
  split <;> exact .refl _ _

theorem touched_scan (hs : s.Inside) : s.Touched none (s.scan index) := by
  unfold scan
  split
  · exact .refl _ _
  · exact .refl _ _
  · rename_i byte input _
    exact touched_store (s := { s with input }) hs

end State

/-- With room for it, the target of an instruction is one that the tape is grown for. -/
theorem Instruction.filter_target? {i : Instruction} {s : State} (h : i.refusal? s = none) :
    (i.target? s).filter s.admits = i.target? s := by
  unfold refusal? at h
  cases htarget : i.target? s with
  | none => rfl
  | some target =>
    rw [htarget, Option.bind_some] at h
    exact Option.filter_some_pos (by rw [State.admits, h]; rfl)

/-- Without room for it, it is none. -/
theorem Instruction.filter_target?_of_refusal? {i : Instruction} {s : State} {error : RoomError}
    (h : i.refusal? s = some error) : (i.target? s).filter s.admits = none := by
  unfold refusal? at h
  cases htarget : i.target? s with
  | none => rfl
  | some target =>
    rw [htarget, Option.bind_some] at h
    exact Option.filter_some_neg (by rw [State.admits, h]; simp)

theorem Stepwise.touches_of_room {s : State} {i : Instruction} (hs : s.Inside)
    (hroom : i.refusal? s = none) (checked : Bool) (index : Int) :
    s.tape.Touches s.pointer (i.target? s) (execute checked i index s).resumption.state.tape := by
  have hgoOn {target? : Option Int} {effect : Except Failure State}
      (h : s.Touched target? effect) :
      s.tape.Touches s.pointer target? (goOn (index + 1) effect).resumption.state.tape := by
    cases effect <;> exact h
  have hbranch (onZero : Bool) (target : Int) :
      s.tape.Touches s.pointer none (branch onZero target index s).resumption.state.tape := by
    unfold branch
    split <;> exact .refl _ _
  obtain ⟨kind, arg⟩ := i
  cases kind with
  | modify => exact hgoOn (State.touched_modify hs)
  | shift => exact hgoOn (State.touched_shift hroom)
  | print => exact hgoOn (State.touched_print hs)
  | scan => exact hgoOn (State.touched_scan hs)
  | clear => exact hgoOn (State.touched_store hs)
  | add => exact hgoOn (State.touched_transfer hroom hs)
  | sub => exact hgoOn (State.touched_transfer hroom hs)
  | beginLoop => exact hbranch true _
  | endLoop => exact hbranch false _

/-- **An instruction touches the current cell and its target**, if there is room for that. -/
theorem Stepwise.touches_execute {s : State} (hs : s.Inside) (checked : Bool) (i : Instruction)
    (index : Int) : s.tape.Touches s.pointer ((i.target? s).filter s.admits)
      (execute checked i index s).resumption.state.tape := by
  cases hroom : i.refusal? s with
  | none =>
    rw [i.filter_target? hroom]
    exact touches_of_room hs hroom checked index
  | some error =>
    rw [i.filter_target?_of_refusal? hroom, execute_of_refusal? hroom]
    exact .refl _ _

end TapeLang
