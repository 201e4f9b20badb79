import Mathlib.Tactic.Ring
import TapeLang.Proofs.Meaning

/-!
# Loops that have an instruction

A loop that moves its cell takes five instructions for each count of the cell and does what `add` or
`sub` does in one (`loop_moves_done`), except that the instruction looks for its target even if the
cell is zero. A loop that adds an amount to its cell ends if and only if the cell is a multiple of
the greatest common divisor of the amount and 256 (`exists_loop_of_rounds`, `exists_rounds`), and
clears the cell then (`loop_clears`).
-/

set_option autoImplicit false

namespace TapeLang

/-! ## Bodies -/

/-- The move to a distance, where a sign is added, and back, counting down at the end. -/
def goFirst (sign distance : Int) : List Instruction :=
  [⟨.shift, distance⟩, ⟨.modify, sign⟩, ⟨.shift, -distance⟩, ⟨.modify, -1⟩]

/-- The same, counting down at the beginning. -/
def countFirst (sign distance : Int) : List Instruction :=
  [⟨.modify, -1⟩, ⟨.shift, distance⟩, ⟨.modify, sign⟩, ⟨.shift, -distance⟩]

/-- The instruction moves the current cell to a distance, and counts it there with a sign. -/
def Instruction.IsMove (sign distance : Int) (i : Instruction) : Prop :=
  sign = 1 ∧ i = ⟨.add, distance⟩ ∨ sign = -1 ∧ i = ⟨.sub, distance⟩

theorem transfer?_eq_some {distance change back count : Int} {i : Instruction}
    (h : transfer? distance change back count = some i) :
    i.IsMove change distance ∧ back = -distance ∧ count = -1 := by
  unfold transfer? at h
  split at h
  · rename_i hc
    obtain ⟨rfl, rfl⟩ := hc
    split at h
    · rename_i hs
      cases h
      exact ⟨.inl ⟨hs, rfl⟩, rfl, rfl⟩
    · split at h
      · rename_i hs
        cases h
        exact ⟨.inr ⟨hs, rfl⟩, rfl, rfl⟩
      · cases h
  · cases h

theorem fuse?_eq_some {code : List Instruction} {i : Instruction} (h : fuse? code = some i) :
    (∃ amount, code = [⟨.modify, amount⟩] ∧ i = ⟨.clear, 0⟩) ∨
      ∃ sign distance, i.IsMove sign distance ∧
        (code = goFirst sign distance ∨ code = countFirst sign distance) := by
  unfold fuse? at h
  split at h
  · cases h
    exact .inl ⟨_, rfl, rfl⟩
  · obtain ⟨hi, rfl, rfl⟩ := transfer?_eq_some h
    exact .inr ⟨_, _, hi, .inl rfl⟩
  · obtain ⟨hi, rfl, rfl⟩ := transfer?_eq_some h
    exact .inr ⟨_, _, hi, .inr rfl⟩
  · cases h

/-- What replaces a loop never merges with its neighbours. -/
theorem isFoldable_of_fuse? {code : List Instruction} {i : Instruction} (h : fuse? code = some i) :
    i.kind.isFoldable = false := by
  rcases fuse?_eq_some h with ⟨_, -, rfl⟩ | ⟨_, _, ⟨-, rfl⟩ | ⟨-, rfl⟩, -⟩ <;> rfl

/-- A loop that is replaced changes cells and moves the pointer, and does nothing else. -/
theorem silent_of_fuse? {code : List Instruction} {i : Instruction} (h : fuse? code = some i) :
    ∀ j ∈ code, j.kind = .modify ∨ j.kind = .shift := by
  obtain ⟨_, rfl, -⟩ | ⟨_, _, -, rfl | rfl⟩ := fuse?_eq_some h <;> simp [goFirst, countFirst]

/-- Only loops with foldable instructions have an instruction. -/
theorem all_isFoldable_of_fuse? {code : List Instruction} {i : Instruction}
    (h : fuse? code = some i) : ∀ j ∈ code, j.kind.isFoldable := by
  intro j hj
  rcases silent_of_fuse? h j hj with hk | hk <;> rw [hk] <;> rfl

namespace Block

theorem isFlat_of_isFoldable {code : List Instruction} (h : ∀ j ∈ code, j.kind.isFoldable) :
    isFlat code := by
  rw [isFlat, List.all_eq_true]
  intro j hj
  have hk := h j hj
  cases hkind : j.kind <;> rw [hkind] at hk <;> first | rfl | cases hk

/-- Where fusing leaves foldable instructions only, it has not done anything. -/
theorem fuse_eq_self {b : Block} (h : ∀ j ∈ b.fuse.code, j.kind.isFoldable) : b.fuse = b := by
  induction b with
  | nil => rfl
  | step b i ih =>
    rw [fuse, ih fun j hj => h j (by simp [fuse, code, hj])]
  | loop b body ihb ih =>
    unfold fuse at h
    split at h
    · rename_i i hi
      have hk := h i (by simp [code])
      rw [isFoldable_of_fuse? hi] at hk
      cases hk
    · have hk := h ⟨.beginLoop, body.fuse.code.length + 1⟩ (by simp [code, wrapLoop])
      cases hk

/-- The body of a loop that moves its cell. -/
def Moves (sign distance : Int) (body : Block) : Prop :=
  body = (goFirst sign distance).foldl step nil ∨ body = (countFirst sign distance).foldl step nil

/-- Folded code never moves a cell to itself. -/
theorem distance_ne_zero {sign distance : Int} {body : Block} (hb : body.Moves sign distance)
    (h : body.Every (·.isIdle = false)) : distance ≠ 0 := by
  rintro rfl
  rcases hb with rfl | rfl <;>
    simp [goFirst, countFirst, Every, Instruction.isIdle, Kind.isFoldable] at h

/-- What the body of a fused loop was. -/
theorem fuse?_fuse_eq_some {body : Block} {i : Instruction} (h : fuse? body.fuse.code = some i) :
    (∃ amount, body = .step .nil ⟨.modify, amount⟩ ∧ i = ⟨.clear, 0⟩) ∨
      ∃ sign distance, i.IsMove sign distance ∧ body.Moves sign distance := by
  have hfold := all_isFoldable_of_fuse? h
  rw [fuse_eq_self hfold] at h hfold
  have hbody := eq_of_isFlat (isFlat_of_isFoldable hfold)
  rcases fuse?_eq_some h with ⟨amount, hcode, hi⟩ | ⟨sign, distance, hi, hcode | hcode⟩
  · exact .inl ⟨amount, by rw [hbody, hcode]; rfl, hi⟩
  · exact .inr ⟨sign, distance, hi, .inl (by rw [← hcode]; exact hbody)⟩
  · exact .inr ⟨sign, distance, hi, .inr (by rw [← hcode]; exact hbody)⟩

end Block

namespace Instruction.IsMove

variable {sign distance : Int} {i : Instruction}

theorem sign_eq (h : i.IsMove sign distance) : sign = 1 ∨ sign = -1 := h.imp And.left And.left

theorem arg_eq (h : i.IsMove sign distance) : i.arg = distance := by
  rcases h with ⟨-, rfl⟩ | ⟨-, rfl⟩ <;> rfl

theorem kind_eq (h : i.IsMove sign distance) : i.kind = .add ∨ i.kind = .sub := by
  rcases h with ⟨-, rfl⟩ | ⟨-, rfl⟩
  · exact .inl rfl
  · exact .inr rfl

theorem act_eq (h : i.IsMove sign distance) (checked : Bool) (v : View) :
    v.act checked i = v.transfer checked sign distance := by
  rcases h with ⟨rfl, rfl⟩ | ⟨rfl, rfl⟩ <;> rfl

end Instruction.IsMove

/-! ## One round -/

variable {checked : Bool} {i : Instruction} {v w : View} {n : Nat}

namespace Block

variable {b : Block}

theorem runs_nil_done : nil.runs checked v n (.done w) ↔ n = 0 ∧ w = v := by
  show n = 0 ∧ Result.done w = .done v ↔ _
  rw [Result.done.injEq]

theorem runs_step_done :
    (b.step i).runs checked v n (.done w) ↔
      ∃ m u, n = m + 1 ∧ b.runs checked v m (.done u) ∧ u.act checked i = some w := by
  constructor
  · intro h
    cases h with
    | both hb hi =>
      cases hi with
      | done hi => exact ⟨_, _, rfl, hb, hi⟩
    | early _ he => exact absurd rfl (he _)
  · intro h
    obtain ⟨m, u, rfl, hb, hi⟩ := h
    exact .both hb (.done hi)

/-- Going to a distance, changing the cell there and coming back. -/
theorem runs_poke_done {sign distance : Int} :
    (((b.step ⟨.shift, distance⟩).step ⟨.modify, sign⟩).step ⟨.shift, -distance⟩).runs checked v n
        (.done w) ↔
      ∃ m u, n = m + 3 ∧ b.runs checked v m (.done u) ∧
        ∃ place : Nat, (place : Int) = u.pointer + distance ∧
          (checked → isByte ((u.cells place).toNat + sign)) ∧
          w = u.put place (byteOf ((u.cells place).toNat + sign)) := by
  constructor
  · intro h
    obtain ⟨_, _, rfl, hb₃, h₃⟩ := runs_step_done.1 h
    obtain ⟨_, _, rfl, hb₂, h₂⟩ := runs_step_done.1 hb₃
    obtain ⟨m, u, rfl, hb, h₁⟩ := runs_step_done.1 hb₂
    obtain ⟨hp, rfl⟩ := View.act_shift_eq_some.1 h₁
    obtain ⟨hc, rfl⟩ := View.act_modify_eq_some.1 h₂
    obtain ⟨-, rfl⟩ := View.act_shift_eq_some.1 h₃
    refine ⟨m, u, rfl, hb, _, Int.toNat_of_nonneg hp, hc, ?_⟩
    simp only [View.put, View.cell, View.mk.injEq, true_and, and_true]
    omega
  · intro h
    obtain ⟨m, u, rfl, hb, place, hp, hc, rfl⟩ := h
    have h₁ : u.act checked ⟨.shift, distance⟩ = some { u with pointer := place } := by
      refine View.act_shift_eq_some.2 ⟨by omega, ?_⟩
      rw [← hp, Int.toNat_natCast]
    have h₂ := View.act_modify_eq_some (v := { u with pointer := place }).2 ⟨hc, rfl⟩
    refine runs_step_done.2 ⟨_, _, rfl, runs_step_done.2 ⟨_, _, rfl,
      runs_step_done.2 ⟨_, _, rfl, hb, h₁⟩, h₂⟩, ?_⟩
    refine View.act_shift_eq_some.2 ⟨?_, ?_⟩
    · show 0 ≤ (place : Int) + -distance
      omega
    · simp only [View.put, View.cell, View.mk.injEq, true_and, and_true]
      omega

theorem runs_count_done :
    (b.step ⟨.modify, -1⟩).runs checked v n (.done w) ↔
      ∃ m u, n = m + 1 ∧ b.runs checked v m (.done u) ∧
        (checked → u.cell ≠ 0) ∧ w = u.put u.pointer (byteOf (u.cell.toNat + -1)) := by
  have hbyte (u : View) : isByte (u.cell.toNat + -1) ↔ u.cell ≠ 0 := by
    rw [isByte_iff, ne_eq, ← UInt8.toNat_inj, UInt8.toNat_zero]
    have := u.cell.toNat_lt
    omega
  rw [runs_step_done]
  simp only [View.act_modify_eq_some, hbyte]

end Block

/-! ## Loops that move their cell -/

/-- The view after one round of a loop that moves its cell. -/
def View.moved (sign : Int) (place : Nat) (v : View) : View :=
  (v.put place (byteOf ((v.cells place).toNat + sign))).put v.pointer (byteOf (v.cell.toNat + -1))

section
variable {sign distance : Int} {body : Block}

/-- One round, whichever way it goes. -/
theorem runs_moves_done (hb : body.Moves sign distance) (hd : distance ≠ 0) (hv : v.cell ≠ 0) :
    body.runs checked v n (.done w) ↔
      n = 4 ∧ ∃ place : Nat, (place : Int) = v.pointer + distance ∧
        (checked → isByte ((v.cells place).toNat + sign)) ∧ w = v.moved sign place := by
  have hne {place : Nat} (hp : (place : Int) = v.pointer + distance) : v.pointer ≠ place := by omega
  rcases hb with rfl | rfl
  · simp only [goFirst, List.foldl, Block.runs_count_done, Block.runs_poke_done,
      Block.runs_nil_done]
    constructor
    · intro h
      obtain ⟨_, _, rfl, ⟨_, _, rfl, ⟨rfl, rfl⟩, place, hp, hc, rfl⟩, -, rfl⟩ := h
      refine ⟨rfl, place, hp, hc, ?_⟩
      rw [View.moved, View.cell, View.cells_put, View.pointer_put, if_neg (hne hp), View.cell]
    · intro h
      obtain ⟨rfl, place, hp, hc, rfl⟩ := h
      refine ⟨3, _, rfl, ⟨0, v, rfl, ⟨rfl, rfl⟩, place, hp, hc, rfl⟩, fun _ => ?_, ?_⟩
      · rw [View.cell, View.cells_put, View.pointer_put, if_neg (hne hp)]
        exact hv
      · rw [View.moved, View.cell, View.cell, View.cells_put, View.pointer_put, if_neg (hne hp)]
  · simp only [countFirst, List.foldl, Block.runs_count_done, Block.runs_poke_done,
      Block.runs_nil_done]
    constructor
    · intro h
      obtain ⟨_, _, rfl, ⟨_, _, rfl, ⟨rfl, rfl⟩, -, rfl⟩, place, hp, hc, rfl⟩ := h
      rw [View.pointer_put] at hp
      rw [View.cells_put, if_neg (hne hp).symm] at hc
      refine ⟨rfl, place, hp, hc, ?_⟩
      rw [View.moved, View.cells_put, if_neg (hne hp).symm, View.put_comm (hne hp)]
    · intro h
      obtain ⟨rfl, place, hp, hc, rfl⟩ := h
      refine ⟨1, _, rfl, ⟨0, v, rfl, ⟨rfl, rfl⟩, fun _ => hv, rfl⟩, place, hp, ?_, ?_⟩
      · rw [View.cells_put, if_neg (hne hp).symm]
        exact hc
      · rw [View.moved, View.cells_put, if_neg (hne hp).symm, View.put_comm (hne hp)]

/-- A zero cell moves nowhere, if there is a target. -/
theorem View.transfer_of_cell_eq_zero {place : Nat} (hv : v.cell = 0)
    (hp : (place : Int) = v.pointer + distance) : v.transfer checked sign distance = some v := by
  refine View.transfer_eq_some.2 ⟨place, hp, fun _ => ?_, ?_⟩
  · rw [hv, UInt8.toNat_zero, Int.natCast_zero, Int.mul_zero, Int.add_zero]
    exact isByte_toNat _
  · rw [hv, UInt8.toNat_zero, Int.natCast_zero, Int.mul_zero, Int.add_zero, byteOf_toNat,
      View.put_of_eq rfl, View.put_of_eq hv]

theorem View.toNat_cell_moved (sign : Int) (place : Nat) (hv : v.cell ≠ 0) :
    (v.moved sign place).cell.toNat + 1 = v.cell.toNat := by
  have hlt := v.cell.toNat_lt
  have hpos : v.cell.toNat ≠ 0 := fun h => hv (UInt8.toNat_inj.1 h)
  have hcell : (v.moved sign place).cell = byteOf (v.cell.toNat + -1) := View.cell_put _
  have hbyte := toNat_byteOf (v.cell.toNat + -1)
  rw [hcell]
  omega

/-- One round changes nothing about what the move comes to. -/
theorem View.transfer_moved {place : Nat} (hd : distance ≠ 0) (hv : v.cell ≠ 0)
    (hp : (place : Int) = v.pointer + distance)
    (hc : checked → isByte ((v.cells place).toNat + sign)) :
    (v.moved sign place).transfer checked sign distance = v.transfer checked sign distance := by
  have hne : place ≠ v.pointer := by omega
  have hcell := View.toNat_cell_moved sign place hv
  have htarget : (v.moved sign place).cells place = byteOf ((v.cells place).toNat + sign) := by
    rw [moved, cells_put, if_neg hne, cells_put, if_pos rfl]
  have hcount : (sign : Int) + sign * (v.moved sign place).cell.toNat = sign * v.cell.toNat := by
    rw [← hcell]
    push_cast
    ring
  have hvalue : byteOf (((v.moved sign place).cells place).toNat
        + sign * (v.moved sign place).cell.toNat)
      = byteOf ((v.cells place).toNat + sign * v.cell.toNat) := by
    rw [htarget, byteOf_toNat_byteOf_add, Int.add_assoc, hcount]
  have hcheck : checked → (((v.moved sign place).cells place).toNat : Int)
        + sign * (v.moved sign place).cell.toNat
      = (v.cells place).toNat + sign * v.cell.toNat := by
    intro h
    rw [htarget, toNat_byteOf_of_isByte (hc h), Int.add_assoc, hcount]
  have hput (value : UInt8) : ((v.moved sign place).put place value).put v.pointer 0
      = (v.put place value).put v.pointer 0 := by
    rw [moved, put_comm hne.symm, put_put, put_put]
  ext w
  rw [transfer_eq_some, transfer_eq_some]
  constructor
  · intro h
    obtain ⟨place', hp', hc', rfl⟩ := h
    obtain rfl : place' = place := Int.ofNat_inj.1 (hp'.trans hp.symm)
    refine ⟨place', hp, fun h => hcheck h ▸ hc' h, ?_⟩
    rw [hvalue]
    exact hput _
  · intro h
    obtain ⟨place', hp', hc', rfl⟩ := h
    obtain rfl : place' = place := Int.ofNat_inj.1 (hp'.trans hp.symm)
    refine ⟨place', hp, fun h => (hcheck h).symm ▸ hc' h, ?_⟩
    rw [hvalue]
    exact (hput _).symm

/-- Where the whole move stays within bytes, its first round does. -/
theorem isByte_first {a b : UInt8} (hs : sign = 1 ∨ sign = -1) (hb : b ≠ 0)
    (h : isByte (a.toNat + sign * b.toNat)) : isByte (a.toNat + sign) := by
  have hpos : b.toNat ≠ 0 := fun h => hb (UInt8.toNat_inj.1 h)
  have ha := a.toNat_lt
  rw [isByte_iff] at h ⊢
  rcases hs with rfl | rfl <;> omega

/-- **A loop that moves its cell** comes to its end exactly if the move succeeds, after five
instructions for each count of the cell. -/
theorem loop_moves_done (hb : body.Moves sign distance) (hd : distance ≠ 0)
    (hs : sign = 1 ∨ sign = -1) :
    (body.runs checked).Loop v n (.done w) ↔
      n = 5 * v.cell.toNat + 1 ∧
        (v.cell = 0 ∧ w = v ∨ v.cell ≠ 0 ∧ v.transfer checked sign distance = some w) := by
  constructor
  · intro h
    generalize hr : Result.done w = r at h
    induction h with
    | exit hz =>
      cases hr
      exact ⟨by rw [hz]; rfl, .inl ⟨hz, rfl⟩⟩
    | again hz hbody _ ih =>
      obtain ⟨rfl, place, hp, hc, rfl⟩ := (runs_moves_done hb hd hz).1 hbody
      obtain ⟨rfl, hrest⟩ := ih hr
      have hcell := View.toNat_cell_moved sign place hz
      refine ⟨by omega, .inr ⟨hz, ?_⟩⟩
      rw [← View.transfer_moved hd hz hp hc]
      rcases hrest with ⟨hz', rfl⟩ | ⟨-, hrest⟩
      · exact View.transfer_of_cell_eq_zero hz' hp
      · exact hrest
    | early _ _ he => exact absurd hr.symm (he w)
  · intro h
    obtain ⟨rfl, h⟩ := h
    induction hk : v.cell.toNat generalizing v with
    | zero =>
      have hz : v.cell = 0 := UInt8.toNat_inj.1 hk
      rcases h with ⟨-, rfl⟩ | ⟨hz', -⟩
      · exact .exit hz
      · exact absurd hz hz'
    | succ k ih =>
      have hz : v.cell ≠ 0 := by
        intro hz
        rw [hz, UInt8.toNat_zero] at hk
        omega
      rcases h with ⟨hz', -⟩ | ⟨-, h⟩
      · exact absurd hz' hz
      obtain ⟨place, hp, hc, -⟩ := View.transfer_eq_some.1 h
      have hfirst := fun h => isByte_first hs hz (hc h)
      have hcell := View.toNat_cell_moved sign place hz
      have hround : body.runs checked v 4 (.done (v.moved sign place)) :=
        (runs_moves_done hb hd hz).2 ⟨rfl, place, hp, hfirst, rfl⟩
      rw [← View.transfer_moved hd hz hp hfirst] at h
      have hrest := ih (v := v.moved sign place) ?_ (by omega)
      · have hcount : 4 + (5 * k + 1) + 1 = 5 * (k + 1) + 1 := by omega
        rw [← hcount]
        exact .again hz hround hrest
      · by_cases hz' : (v.moved sign place).cell = 0
        · rw [View.transfer_of_cell_eq_zero hz' hp, Option.some.injEq] at h
          exact .inl ⟨hz', h.symm⟩
        · exact .inr ⟨hz', h⟩

end

/-! ## Loops that change their cell only -/

section
variable {amount : Int}

theorem runs_modify_done :
    (Block.nil.step ⟨.modify, amount⟩).runs checked v n (.done w) ↔
      n = 1 ∧ v.act checked ⟨.modify, amount⟩ = some w := by
  simp only [Block.runs_step_done, Block.runs_nil_done]
  constructor
  · intro h
    obtain ⟨_, _, rfl, ⟨rfl, rfl⟩, h⟩ := h
    exact ⟨rfl, h⟩
  · intro h
    obtain ⟨rfl, h⟩ := h
    exact ⟨0, v, rfl, ⟨rfl, rfl⟩, h⟩

/-- If such a loop comes to its end, the cell is cleared. -/
theorem loop_clears (h : ((Block.nil.step ⟨.modify, amount⟩).runs checked).Loop v n (.done w)) :
    w = v.put v.pointer 0 := by
  generalize hr : Result.done w = r at h
  induction h with
  | exit hz =>
    cases hr
    rw [View.put_of_eq hz]
  | again _ hbody _ ih =>
    obtain ⟨-, hu⟩ := runs_modify_done.1 hbody
    obtain ⟨-, rfl⟩ := View.act_modify_eq_some.1 hu
    rw [ih hr, View.pointer_put, View.put_put]
  | early _ _ he => exact absurd hr.symm (he w)

/-- The cell gets zero after `k` rounds, or earlier. -/
theorem exists_loop_of_rounds {k : Nat} (h : (v.cell.toNat + k * amount) % 256 = 0) :
    ∃ n, ((Block.nil.step ⟨.modify, amount⟩).runs false).Loop v n (.done (v.put v.pointer 0)) := by
  induction k generalizing v with
  | zero =>
    have hlt := v.cell.toNat_lt
    have hz : v.cell = 0 := by
      rw [← UInt8.toNat_inj, UInt8.toNat_zero]
      omega
    rw [View.put_of_eq hz]
    exact ⟨1, .exit hz⟩
  | succ k ih =>
    by_cases hz : v.cell = 0
    · rw [View.put_of_eq hz]
      exact ⟨1, .exit hz⟩
    · have hact : v.act false ⟨.modify, amount⟩
          = some (v.put v.pointer (byteOf (v.cell.toNat + amount))) :=
        View.act_modify_eq_some.2 ⟨Bool.noConfusion, rfl⟩
      have hround := runs_modify_done.2 ⟨rfl, hact⟩
      have hrest := ih (v := v.put v.pointer (byteOf (v.cell.toNat + amount))) ?_
      · obtain ⟨n, hrest⟩ := hrest
        rw [View.pointer_put, View.put_put] at hrest
        exact ⟨_, .again hz hround hrest⟩
      · rw [View.cell_put, toNat_byteOf, Int.emod_add_emod, ← h]
        congr 1
        push_cast
        ring

/-- The rounds it takes, by the coefficients of the greatest common divisor. -/
theorem exists_rounds {b : UInt8} (h : ¬ Traps amount b) :
    ∃ k : Nat, (b.toNat + k * amount) % 256 = 0 := by
  rw [Traps, not_not] at h
  obtain ⟨t, ht⟩ := h
  have hgcd := Int.gcd_eq_gcd_ab amount 256
  let q := -Int.gcdA amount 256 * t / 256
  refine ⟨(-Int.gcdA amount 256 * t % 256).toNat, ?_⟩
  rw [Int.toNat_of_nonneg (Int.emod_nonneg _ (by decide)), ht,
    Int.emod_def (-Int.gcdA amount 256 * t)]
  have hzero : ((Int.gcd amount 256 * t : Nat) : Int)
      + (-Int.gcdA amount 256 * t - 256 * q) * amount
      = 256 * (Int.gcdB amount 256 * t - q * amount) := by
    push_cast
    rw [hgcd]
    ring
  rw [hzero, Int.mul_emod_right]

theorem Traps.add {b : UInt8} (h : Traps amount b) : Traps amount (byteOf (b.toNat + amount)) := by
  have hg : ((Int.gcd amount 256 : Nat) : Int) ∣ amount := Int.gcd_dvd_left ..
  have hg' : ((Int.gcd amount 256 : Nat) : Int) ∣ 256 := Int.gcd_dvd_right ..
  intro hdvd
  rw [← Int.natCast_dvd_natCast, toNat_byteOf, Int.dvd_iff_emod_eq_zero,
    Int.emod_emod_of_dvd _ hg', ← Int.dvd_iff_emod_eq_zero, Int.dvd_add_left hg,
    Int.natCast_dvd_natCast] at hdvd
  exact h hdvd

theorem Traps.ne_zero {b : UInt8} (h : Traps amount b) : b ≠ 0 := by
  rintro rfl
  exact h (Nat.dvd_zero _)

end

end TapeLang
