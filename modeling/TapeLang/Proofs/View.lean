import Mathlib.Logic.Function.Basic
import TapeLang.Instruction.Fold
import TapeLang.Machine.Effect

/-!
# Views

What can be told of a state from outside: a row of byte cells that never ends, the pointer and the
two streams. `View.act` is the effect of one instruction on a view; it knows no tape, so chunks and
growth do not show. An instruction that fails has no effect (`none`).

* `act_append`: neighbours of one foldable kind act as one instruction with the sum of their
  arguments, and `act_idle`: an idle instruction does nothing.
* `printed_act`: output only grows.
-/

set_option autoImplicit false

namespace TapeLang

/-! ## Bytes -/

theorem toNat_byteOf (n : Int) : ((byteOf n).toNat : Int) = n % 256 := by
  have h₀ := Int.emod_nonneg n (by decide : (256 : Int) ≠ 0)
  have h := Int.emod_lt_of_pos n (by decide : (0 : Int) < 256)
  rw [byteOf, UInt8.toNat_ofNat', Nat.mod_eq_of_lt (by omega), Int.toNat_of_nonneg h₀]

theorem isByte_iff (n : Int) : isByte n ↔ 0 ≤ n ∧ n ≤ 255 := by
  simp [isByte]

theorem isByte_toNat (b : UInt8) : isByte b.toNat := by
  have h := b.toNat_lt
  rw [isByte_iff]
  omega

theorem byteOf_eq_iff (n : Int) (b : UInt8) : byteOf n = b ↔ n % 256 = b.toNat := by
  rw [← toNat_byteOf, Int.ofNat_inj, UInt8.toNat_inj]

theorem byteOf_congr {m n : Int} (h : m % 256 = n % 256) : byteOf m = byteOf n := by
  rw [byteOf, byteOf, h]

@[simp] theorem byteOf_toNat (b : UInt8) : byteOf b.toNat = b := by
  have h := b.toNat_lt
  rw [byteOf_eq_iff]
  omega

/-- Wrapping once at the end is enough. -/
theorem byteOf_toNat_byteOf_add (m n : Int) :
    byteOf ((byteOf m).toNat + n) = byteOf (m + n) := by
  apply byteOf_congr
  rw [toNat_byteOf]
  omega

theorem toNat_byteOf_of_isByte {n : Int} (h : isByte n) : ((byteOf n).toNat : Int) = n := by
  rw [isByte_iff] at h
  rw [toNat_byteOf]
  omega

/-! ## Views -/

/-- What can be told of a state from outside. -/
structure View where
  cells : Nat → UInt8
  pointer : Nat
  input : Input
  output : Output

namespace View

/-- All cells are zero, and nothing has been read or written. -/
def start (stdin : List UInt8) : View := ⟨fun _ => 0, 0, { pending := stdin }, {}⟩

/-- The current cell. -/
def cell (v : View) : UInt8 := v.cells v.pointer

/-- The bytes written so far. -/
def printed (v : View) : List UInt8 := v.output.written.toList

/-- Writes a byte into a cell. -/
def put (place : Nat) (value : UInt8) (v : View) : View :=
  { v with cells := Function.update v.cells place value }

/-- Writes a result into a cell; a checked one has to be a byte. -/
def write (checked : Bool) (place : Nat) (value : Int) (v : View) : Option View :=
  if checked && !isByte value then none else some (v.put place (byteOf value))

/-- Moves the pointer. -/
def shift (distance : Int) (v : View) : Option View :=
  if v.pointer + distance < 0 then none
  else some { v with pointer := (v.pointer + distance).toNat }

/-- Adds the current cell, times `sign`, to the one at a distance and clears it. -/
def transfer (checked : Bool) (sign distance : Int) (v : View) : Option View :=
  if v.pointer + distance < 0 then none
  else
    let place := (v.pointer + distance).toNat
    (v.write checked place ((v.cells place).toNat + sign * v.cell.toNat)).map (put v.pointer 0)

/-- Writes the current cell `count` times. -/
def print (count : Int) (v : View) : Option View :=
  let (output, complete) := v.output.putMany v.cell count.toNat
  if complete then some { v with output } else none

/-- Reads a byte into the current cell. -/
def scan (v : View) : Option View :=
  match v.input.read? with
  | some (some byte, input) => some ({ v with input }.put v.pointer byte)
  | _ => none

/-- The effect of an instruction that is no jump. -/
def act (checked : Bool) (i : Instruction) (v : View) : Option View :=
  match i.kind with
  | .modify => v.write checked v.pointer (v.cell.toNat + i.arg)
  | .shift => v.shift i.arg
  | .print => v.print i.arg
  | .scan => v.scan
  | .clear => some (v.put v.pointer 0)
  | .add => v.transfer checked 1 i.arg
  | .sub => v.transfer checked (-1) i.arg
  | .beginLoop | .endLoop => none

variable {v w : View} {checked : Bool} {i : Instruction}

/-! ## Cells -/

@[simp] theorem pointer_put (place : Nat) (value : UInt8) :
    (v.put place value).pointer = v.pointer := rfl

theorem cells_put (place k : Nat) (value : UInt8) :
    (v.put place value).cells k = if k = place then value else v.cells k := by
  simp [put, Function.update_apply]

@[simp] theorem cell_put (value : UInt8) : (v.put v.pointer value).cell = value := by
  simp [cell, cells_put]

@[simp] theorem put_put (place : Nat) (a b : UInt8) :
    (v.put place a).put place b = v.put place b := by
  simp [put]

theorem put_comm {j k : Nat} (h : j ≠ k) (a b : UInt8) :
    (v.put j a).put k b = (v.put k b).put j a := by
  simp only [put, Function.update_comm h]

theorem put_of_eq {place : Nat} {value : UInt8} (h : v.cells place = value) :
    v.put place value = v := by
  subst h
  simp [put]

theorem put_cell (v : View) : v.put v.pointer v.cell = v := put_of_eq rfl

/-! ## Output and input -/

theorem putMany_add (byte : UInt8) (m n : Nat) (output : Output) :
    output.putMany byte (m + n) =
      if (output.putMany byte m).2 then (output.putMany byte m).1.putMany byte n
      else output.putMany byte m := by
  induction m generalizing output with
  | zero => simp [Output.putMany]
  | succ m ih =>
    rw [Nat.succ_add]
    by_cases h : output.isFull
    · simp [Output.putMany, h]
    · simp only [Output.putMany, h, Bool.false_eq_true, ↓reduceIte]
      exact ih _

theorem putMany_written (byte : UInt8) (n : Nat) (output : Output) :
    output.written.toList <+: (output.putMany byte n).1.written.toList := by
  induction n generalizing output with
  | zero => exact List.prefix_rfl
  | succ n ih =>
    by_cases h : output.isFull
    · simp [Output.putMany, h]
    · simp only [Output.putMany, h, Bool.false_eq_true, ↓reduceIte]
      refine List.IsPrefix.trans ?_ (ih _)
      simp

theorem print_eq_some {count : Int} :
    v.print count = some w ↔ (v.output.putMany v.cell count.toNat).2 ∧
      w = { v with output := (v.output.putMany v.cell count.toNat).1 } := by
  simp only [print]
  split
  · rename_i h
    simp only [h, true_and, Option.some.injEq]
    exact eq_comm
  · rename_i h
    simp [h]

theorem scan_eq_some :
    v.scan = some w ↔
      ∃ byte input, v.input.read? = some (some byte, input) ∧
        w = { v with input }.put v.pointer byte := by
  unfold scan
  split
  · rename_i byte input h
    simp only [h, Option.some.injEq, Prod.mk.injEq]
    constructor
    · intro hw
      exact ⟨byte, input, ⟨rfl, rfl⟩, hw.symm⟩
    · intro hw
      obtain ⟨_, _, ⟨rfl, rfl⟩, hw⟩ := hw
      exact hw.symm
  · rename_i h
    simp only [reduceCtorEq, false_iff]
    intro hw
    obtain ⟨byte, input, hr, -⟩ := hw
    exact h byte input hr

theorem readsLeft_read {byte : Option UInt8} {input rest : Input}
    (h : input.read? = some (byte, rest)) (hl : input.readsLeft = none) :
    rest.readsLeft = none := by
  simp only [Input.read?, Input.call?, hl] at h
  split at h
  · cases h
    exact hl
  · cases h
    rfl

/-! ## Writing and moving -/

theorem write_eq_some {place : Nat} {value : Int} :
    v.write checked place value = some w ↔
      (checked → isByte value) ∧ w = v.put place (byteOf value) := by
  cases checked <;> cases h : isByte value <;> simp [write, h, eq_comm]

theorem shift_eq_some {distance : Int} :
    v.shift distance = some w ↔
      0 ≤ v.pointer + distance ∧ w = { v with pointer := (v.pointer + distance).toNat } := by
  unfold shift
  split
  · simp only [reduceCtorEq, false_iff]; omega
  · simp only [Option.some.injEq]
    exact ⟨fun h => ⟨by omega, h.symm⟩, fun h => h.2.symm⟩

theorem transfer_eq_some {sign distance : Int} :
    v.transfer checked sign distance = some w ↔
      ∃ place : Nat, (place : Int) = v.pointer + distance ∧
        (checked → isByte ((v.cells place).toNat + sign * v.cell.toNat)) ∧
        w = (v.put place
          (byteOf ((v.cells place).toNat + sign * v.cell.toNat))).put v.pointer 0 := by
  unfold transfer
  split
  · simp only [reduceCtorEq, false_iff]
    intro h
    obtain ⟨place, hp, -⟩ := h
    omega
  · have hp : ((v.pointer + distance).toNat : Int) = v.pointer + distance := by omega
    simp only [Option.map_eq_some_iff, write_eq_some]
    constructor
    · intro h
      obtain ⟨_, ⟨hc, rfl⟩, rfl⟩ := h
      exact ⟨_, hp, hc, rfl⟩
    · intro h
      obtain ⟨place, hq, hc, rfl⟩ := h
      obtain rfl : place = (v.pointer + distance).toNat := by omega
      exact ⟨_, ⟨hc, rfl⟩, rfl⟩

/-! ## Instructions -/

theorem act_modify_eq_some {amount : Int} :
    v.act checked ⟨.modify, amount⟩ = some w ↔
      (checked → isByte (v.cell.toNat + amount)) ∧
        w = v.put v.pointer (byteOf (v.cell.toNat + amount)) :=
  write_eq_some

theorem act_shift_eq_some {distance : Int} :
    v.act checked ⟨.shift, distance⟩ = some w ↔
      0 ≤ v.pointer + distance ∧ w = { v with pointer := (v.pointer + distance).toNat } :=
  shift_eq_some

/-- What an instruction does to the streams: nothing, or it writes, or it reads a byte. -/
theorem act_streams (h : v.act checked i = some w) :
    (w.input = v.input ∧ w.output = v.output) ∨
    (w.input = v.input ∧ ∃ count, w.output = (v.output.putMany v.cell count).1) ∨
    (w.output = v.output ∧ ∃ byte, v.input.read? = some (some byte, w.input)) := by
  obtain ⟨kind, arg⟩ := i
  cases kind with
  | modify => obtain ⟨-, rfl⟩ := write_eq_some.1 h; exact .inl ⟨rfl, rfl⟩
  | shift => obtain ⟨-, rfl⟩ := shift_eq_some.1 h; exact .inl ⟨rfl, rfl⟩
  | print => obtain ⟨-, rfl⟩ := print_eq_some.1 h; exact .inr (.inl ⟨rfl, _, rfl⟩)
  | scan => obtain ⟨byte, _, hr, rfl⟩ := scan_eq_some.1 h; exact .inr (.inr ⟨rfl, byte, hr⟩)
  | clear => cases h; exact .inl ⟨rfl, rfl⟩
  | add => obtain ⟨_, -, -, rfl⟩ := transfer_eq_some.1 h; exact .inl ⟨rfl, rfl⟩
  | sub => obtain ⟨_, -, -, rfl⟩ := transfer_eq_some.1 h; exact .inl ⟨rfl, rfl⟩
  | beginLoop => cases h
  | endLoop => cases h

theorem printed_act (h : v.act checked i = some w) : v.printed <+: w.printed := by
  unfold printed
  rcases act_streams h with ⟨-, hw⟩ | ⟨-, count, hw⟩ | ⟨hw, -⟩
  · exact (congrArg (·.written.toList) hw.symm) ▸ List.prefix_rfl
  · rw [hw]
    exact putMany_written _ _ _
  · exact (congrArg (·.written.toList) hw.symm) ▸ List.prefix_rfl

/-- A source of input that never fails stays one. -/
theorem readsLeft_act (h : v.act checked i = some w) (hl : v.input.readsLeft = none) :
    w.input.readsLeft = none := by
  rcases act_streams h with ⟨hw, -⟩ | ⟨hw, -⟩ | ⟨-, byte, hr⟩
  · rw [hw]
    exact hl
  · rw [hw]
    exact hl
  · exact readsLeft_read hr hl

theorem act_idle (h : i.isIdle) (v : View) : v.act checked i = some v := by
  obtain ⟨kind, arg⟩ := i
  simp only [Instruction.isIdle, Bool.and_eq_true, beq_iff_eq] at h
  obtain ⟨hk, rfl⟩ := h
  cases kind with
  | modify =>
    simp only [act, Int.add_zero]
    exact write_eq_some.2 ⟨fun _ => isByte_toNat v.cell, by rw [byteOf_toNat, put_cell]⟩
  | shift =>
    simp only [act]
    exact shift_eq_some.2 ⟨by omega, by simp⟩
  | print =>
    simp only [act]
    exact print_eq_some.2 ⟨rfl, rfl⟩
  | _ => cases hk

theorem checked_of_act_modify {amount : Int} (h : v.act checked ⟨.modify, amount⟩ = none) :
    checked = true := by
  cases checked with
  | true => rfl
  | false => cases h

/-- Neighbours of one foldable kind act as one instruction with the sum of their arguments. -/
theorem act_append {kind : Kind} {a b : Int} {x : View} (hk : kind.isFoldable)
    (hp : kind = .print → 0 ≤ a ∧ 0 ≤ b) (ha : v.act checked ⟨kind, a⟩ = some w)
    (hb : w.act checked ⟨kind, b⟩ = some x) : v.act checked ⟨kind, a + b⟩ = some x := by
  cases kind with
  | modify =>
    obtain ⟨hca, rfl⟩ := write_eq_some.1 ha
    obtain ⟨hcb, rfl⟩ := write_eq_some.1 hb
    simp only [cell_put, pointer_put] at hcb ⊢
    refine write_eq_some.2 ⟨fun hc => ?_, ?_⟩
    · rw [toNat_byteOf_of_isByte (hca hc)] at hcb
      simpa [Int.add_assoc] using hcb hc
    · rw [put_put, byteOf_toNat_byteOf_add, Int.add_assoc]
  | shift =>
    simp only [act] at ha hb ⊢
    obtain ⟨h₁, rfl⟩ := shift_eq_some.1 ha
    obtain ⟨h₂, rfl⟩ := shift_eq_some.1 hb
    simp only at h₂
    exact shift_eq_some.2 ⟨by omega, by simp only [View.mk.injEq, true_and, and_true]; omega⟩
  | print =>
    obtain ⟨ha', hb'⟩ := hp rfl
    obtain ⟨h₁, rfl⟩ := print_eq_some.1 ha
    obtain ⟨h₂, rfl⟩ := print_eq_some.1 hb
    have hsum : (a + b).toNat = a.toNat + b.toNat := by omega
    have hrun := putMany_add v.cell a.toNat b.toNat v.output
    rw [if_pos h₁] at hrun
    exact print_eq_some.2 (by simp only [hsum, hrun]; exact ⟨h₂, rfl⟩)
  | _ => cases hk

/-- A print of a sum is the two prints in order. -/
theorem act_print_add {a b : Int} {x : View} (ha : 0 ≤ a) (hb : 0 ≤ b)
    (h : v.act checked ⟨.print, a + b⟩ = some x) :
    ∃ w, v.act checked ⟨.print, a⟩ = some w ∧ w.act checked ⟨.print, b⟩ = some x := by
  obtain ⟨hc, rfl⟩ := print_eq_some.1 h
  have hsum : (a + b).toNat = a.toNat + b.toNat := by omega
  have hrun := putMany_add v.cell a.toNat b.toNat v.output
  rw [hsum] at hc ⊢
  by_cases h₁ : (v.output.putMany v.cell a.toNat).2
  · rw [if_pos h₁] at hrun
    rw [hrun] at hc ⊢
    exact ⟨_, print_eq_some.2 ⟨h₁, rfl⟩, print_eq_some.2 ⟨hc, rfl⟩⟩
  · rw [if_neg h₁] at hrun
    rw [hrun] at hc
    exact absurd hc h₁

end View

end TapeLang
