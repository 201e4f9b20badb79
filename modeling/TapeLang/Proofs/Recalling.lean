import Mathlib.Tactic.Ring
import TapeLang.Proofs.View
import TapeLang.Tape.Access
import TapeLang.Tape.Lemmas

/-!
# What a tape recalls

A tape is told by its past: the writes that have succeeded since it was new or reset, and the
indices that it was asked to have and that there was room for. A cell holds what the last write to
it leaves in a byte, and the length is the shortest one in whole chunks with the highest index
(`Tape.recalls_past`). Growth in steps of several sizes does not show in it (`Tape.size_extend_eq`),
nor in whether there is room (`Tape.refusal?_eq_none_iff`).
-/

set_option autoImplicit false

namespace TapeLang

/-- The error says that a sequence does not have an index. -/
def RunError.IsOfIndex : RunError → Prop
  | outOfBounds _ _ | indexNoWord | noSuchInstruction _ => True
  | _ => False

namespace Tape

/-! ## The highest index -/

/-- The highest of some indices, or zero. -/
def highest (indices : List Int) : Int := indices.foldr max 0

theorem highest_le_iff {indices : List Int} {bound : Int} :
    highest indices ≤ bound ↔ 0 ≤ bound ∧ ∀ index ∈ indices, index ≤ bound := by
  unfold highest
  induction indices with
  | nil => simp
  | cons index indices ih =>
    rw [List.foldr_cons, Int.max_le, ih, List.forall_mem_cons]
    exact and_left_comm

theorem highest_nonneg (indices : List Int) : 0 ≤ highest indices :=
  (highest_le_iff.1 (Int.le_refl _)).1

/-- It does not depend on the order of the indices, nor on how often each is there. -/
theorem highest_congr {indices indices' : List Int}
    (h : ∀ index, index ∈ indices ↔ index ∈ indices') : highest indices = highest indices' := by
  have hle : highest indices ≤ highest indices' ↔ _ := highest_le_iff
  have hge : highest indices' ≤ highest indices ↔ _ := highest_le_iff
  simp only [h] at hle
  simp only [← h] at hge
  exact Int.le_antisymm (hle.2 (highest_le_iff.1 (Int.le_refl _)))
    (hge.2 (highest_le_iff.1 (Int.le_refl _)))

/-! ## Pasts -/

/-- A sequence of a length has the index, counted from its start or from its end. -/
def Has (length index : Int) : Prop := -length ≤ index ∧ index < length

instance (length index : Int) : Decidable (Has length index) :=
  inferInstanceAs (Decidable (_ ∧ _))

/-- The cell that an index means on a tape of a length. -/
def cellAt (length index : Int) : Int := if index < 0 then length + index else index

/-- What has been done to a tape since it was new or reset, the newest first: the writes to cells
that it had, and the indices it was asked to have and has got. -/
structure Past where
  writes : List (Int × Int) := []
  ensured : List Int := []
deriving DecidableEq

namespace Past

/-- The length of the tape. -/
def length (chunkSize : Int) (past : Past) : Int :=
  chunkSize * (highest past.ensured / chunkSize + 1)

/-- The tape has an index, or there is room for the shortest one in whole chunks that does. -/
def Admits (chunkSize : Int) (memory : Memory) (past : Past) (index : Int) : Prop :=
  index < past.length chunkSize ∨ memory.objection? (chunkSize * (index / chunkSize + 1)) = none

instance (chunkSize : Int) (memory : Memory) (past : Past) (index : Int) :
    Decidable (past.Admits chunkSize memory index) :=
  inferInstanceAs (Decidable (_ ∨ _))

/-- The integer last written to a cell, or zero. -/
def value (past : Past) (cell : Int) : Int := (past.writes.lookup cell).getD 0

/-- The past after one more access. -/
def note (chunkSize : Int) (memory : Memory) (past : Past) : Access → Past
  | .get _ => past
  | .set index value =>
    if Has (past.length chunkSize) index then
      { past with writes := (cellAt (past.length chunkSize) index, value) :: past.writes }
    else past
  | .ensure index =>
    if past.Admits chunkSize memory index then { past with ensured := index :: past.ensured }
    else past
  | .reset => {}

/-- The past that a sequence of accesses makes. -/
def ofAccesses (chunkSize : Int) (memory : Memory) (accesses : List Access) : Past :=
  accesses.foldl (note chunkSize memory) {}

variable {past : Past}

theorem value_cons (writes : List (Int × Int)) (ensured : List Int) (written : Int × Int)
    (cell : Int) : value ⟨written :: writes, ensured⟩ cell
      = if cell = written.1 then written.2 else value ⟨writes, ensured⟩ cell := by
  unfold value
  obtain ⟨cell', v⟩ := written
  by_cases h : cell = cell'
  · simp [h]
  · have hne : (cell == cell') = false := beq_eq_false_iff_ne.2 h
    rw [if_neg h, List.lookup_cons, hne]

end Past

/-! ## Indices -/

variable {t : Tape} {index : Int}

theorem get?_eq_none_iff : t.get? index = none ↔ ¬ Has t.size index := by
  have hiff := isSome_resolve?_iff t.size index
  rw [Has, ← hiff, get?]
  cases hplace : resolve? t.size index with
  | none => simp
  | some place => simp [Array.getElem?_eq_getElem (resolve?_lt hplace)]

/-- An index that the tape has means one of its cells. -/
theorem resolve?_of_has (h : Has t.size index) :
    ∃ place : Nat, (place : Int) = cellAt t.size index ∧ place < t.size ∧
      resolve? t.size index = resolve? t.size place := by
  obtain ⟨hlow, hhigh⟩ := h
  unfold cellAt
  by_cases hneg : index < 0
  · rw [if_pos hneg]
    have hplace : ((t.size + index).toNat : Int) = t.size + index :=
      Int.toNat_of_nonneg (by omega)
    refine ⟨(t.size + index).toNat, hplace, by omega, ?_⟩
    have hright : resolve? t.size (t.size + index) = some (t.size + index).toNat :=
      resolve?_of_nonneg (by omega) (by omega)
    rw [hplace, hright, resolve?, if_neg (by omega), if_pos (by omega), Int.add_comm]
  · rw [if_neg hneg]
    refine ⟨index.toNat, by omega, by omega, ?_⟩
    rw [Int.toNat_of_nonneg (Int.not_lt.mp hneg)]

theorem get?_of_has (h : Has t.size index) :
    ∃ place : Nat, (place : Int) = cellAt t.size index ∧ t.get? index = some (t.get place) := by
  obtain ⟨place, hcell, hlt, hplace⟩ := resolve?_of_has h
  refine ⟨place, hcell, ?_⟩
  rw [← get?_of_lt hlt, get?, get?, hplace]

theorem set_of_has (h : Has t.size index) (value : UInt8) :
    ∃ place : Nat, (place : Int) = cellAt t.size index ∧ place < t.size ∧
      t.set index value = t.set place value := by
  obtain ⟨place, hcell, hlt, hplace⟩ := resolve?_of_has h
  refine ⟨place, hcell, hlt, ?_⟩
  rw [set, set, hplace]

/-- The error of an index that is missing says so, unless the index would be a word without a
sign. -/
theorem missing_cases (index : Int) (size : Nat) :
    if wordBound ≤ index ∧ index < 2 * wordBound then
      RunError.missing index size = .numberTooLarge
    else (RunError.missing index size).IsOfIndex := by
  have hword := isWord_iff index
  unfold RunError.missing
  split
  · rename_i hlarge
    have hnot : ¬ isWord index := fun h => by
      have := (hword.1 h).2
      omega
    rw [if_neg hnot, if_pos ⟨by unfold wordBound at *; omega, hlarge.2⟩]
  · rename_i hlarge
    by_cases h : isWord index
    · rw [if_pos h]
      trivial
    · have hlow : ¬ (0 ≤ index ∧ index < 2 * wordBound) := by
        intro hrange
        have hge : ¬ wordBound ≤ index := fun hge => hlarge ⟨hge, hrange.2⟩
        exact h (hword.2 ⟨by unfold wordBound; omega, Int.not_le.mp hge⟩)
      rw [if_neg h, if_neg hlow]
      trivial

/-! ## Growth -/

/-- **The length does not depend on the order of the growth steps**, only on how far they reach. -/
theorem size_extend_eq {t : Tape} {index reach : Int} (h₀ : 0 ≤ reach)
    (h : (t.size : Int) = t.chunkSize * (reach / t.chunkSize + 1)) :
    ((t.extend index).size : Int) = t.chunkSize * (max index reach / t.chunkSize + 1) := by
  have hpos : (0 : Int) < t.chunkSize := Int.natCast_pos.mpr t.chunkSize_pos
  have hlt : reach < t.size := by
    rw [h, Int.mul_add, Int.mul_one]
    exact Int.lt_mul_ediv_self_add hpos
  by_cases hindex : index < t.size
  · rw [extend_of_lt t index hindex, h]
    rcases Int.le_total index reach with hle | hle
    · rw [Int.max_eq_right hle]
    · rw [Int.max_eq_left hle]
      have hsame : index / t.chunkSize = reach / t.chunkSize := by
        apply Int.le_antisymm
        · rw [h, Int.mul_comm] at hindex
          exact Int.lt_add_one_iff.1 (Int.ediv_lt_of_lt_mul hpos hindex)
        · exact Int.ediv_le_ediv hpos hle
      rw [hsame]
  · have hle := Int.not_lt.mp hindex
    rw [Int.max_eq_left (by omega), size_extend_of_le t index hle, growth]
    have hnat : ((index.toNat - t.size : Nat) : Int) = index - t.size := by omega
    have hquot : (index - t.size) / t.chunkSize
        = index / t.chunkSize - (reach / t.chunkSize + 1) := by
      rw [h]
      exact Int.sub_mul_ediv_left _ _ hpos.ne'
    push_cast
    rw [hnat, hquot, h]
    ring

/-! ## Accesses -/

/-- The past tells the length of the tape and what each of its cells holds. -/
structure Past.Tells (past : Past) (t : Tape) : Prop where
  size : (t.size : Int) = past.length t.chunkSize
  cells : ∀ place : Nat, ((t.get place).toNat : Int) = past.value place % 256

variable {past : Past} {memory : Memory}

theorem chunkSize_perform (t : Tape) (memory : Memory) (access : Access) :
    (t.perform memory access).2.chunkSize = t.chunkSize := by
  cases access with
  | get index =>
    simp only [perform]
    split <;> rfl
  | set index value =>
    simp only [perform]
    split
    · exact chunkSize_set ..
    · rfl
  | ensure index =>
    simp only [perform, ensure]
    cases t.refusal? memory index with
    | some error => rfl
    | none => exact chunkSize_extend ..
  | reset => rfl

/-- A blank tape has no past. -/
theorem tells_blank (n : Nat) (h : 0 < n) : Past.Tells {} (blank n h) := by
  refine ⟨?_, fun place => by rw [get_blank]; rfl⟩
  rw [size_blank, Past.length, show highest (Past.ensured {}) = 0 from rfl, Int.zero_ediv]
  exact (Int.mul_one _).symm

/-- A write changes the cell that its index means, and no other. -/
theorem Past.Tells.set (h : past.Tells t) {value : Int} (hindex : Has t.size index) :
    Past.Tells { past with writes := (cellAt t.size index, value) :: past.writes }
      (t.set index (byteOf value)) := by
  obtain ⟨place, hcell, hlt, hset⟩ := set_of_has hindex (byteOf value)
  rw [hset]
  refine ⟨by rw [size_set, chunkSize_set]; exact h.size, fun k => ?_⟩
  rw [get_set _ hlt, value_cons, ← hcell]
  by_cases hk : k = place
  · rw [if_pos hk, if_pos (congrArg Nat.cast hk), toNat_byteOf]
  · rw [if_neg hk, if_neg (mt Int.ofNat_inj.1 hk)]
    exact h.cells k

/-- Growing reaches the index, and changes no cell. -/
theorem Past.Tells.extend (h : past.Tells t) (index : Int) :
    Past.Tells { past with ensured := index :: past.ensured } (t.extend index) := by
  refine ⟨?_, fun place => by rw [get_extend]; exact h.cells place⟩
  rw [chunkSize_extend]
  exact size_extend_eq (highest_nonneg _) h.size

/-- The past tells what there is room for. -/
theorem Past.Tells.admits_iff (h : past.Tells t) :
    past.Admits t.chunkSize memory index ↔ t.refusal? memory index = none := by
  have hgrown : ¬ index < t.size →
      ((t.extend index).size : Int) = t.chunkSize * (index / t.chunkSize + 1) := by
    intro hindex
    have hpos : (0 : Int) < t.chunkSize := Int.natCast_pos.mpr t.chunkSize_pos
    have hreach : highest past.ensured < t.size := by
      rw [h.size, length, Int.mul_add, Int.mul_one]
      exact Int.lt_mul_ediv_self_add hpos
    rw [size_extend_eq (highest_nonneg _) h.size, Int.max_eq_left (by omega)]
  rw [refusal?_eq_none_iff, Admits, ← h.size]
  by_cases hindex : index < t.size
  · simp only [hindex, true_or]
  · rw [hgrown hindex]

/-- **An access makes of the past what it makes of the tape.** -/
theorem Past.Tells.perform (h : past.Tells t) (memory : Memory) (access : Access) :
    (past.note t.chunkSize memory access).Tells (t.perform memory access).2 := by
  cases access with
  | get index =>
    simp only [Tape.perform, note]
    split <;> exact h
  | set index value =>
    simp only [Tape.perform, note, ← h.size]
    cases hget : t.get? index with
    | none =>
      rw [if_neg (get?_eq_none_iff.1 hget)]
      exact h
    | some _ =>
      have hindex : Has t.size index := by
        by_contra hnot
        rw [get?_eq_none_iff.2 hnot] at hget
        cases hget
      rw [if_pos hindex]
      exact h.set hindex
  | ensure index =>
    simp only [Tape.perform, note]
    cases hroom : t.refusal? memory index with
    | some error =>
      have hrefused : ¬ past.Admits t.chunkSize memory index := by
        rw [h.admits_iff, hroom]
        exact Option.some_ne_none error
      rw [if_neg hrefused, ensure_eq_error hroom]
      exact h
    | none =>
      rw [if_pos (h.admits_iff.2 hroom), ensure_eq_ok hroom]
      exact h.extend index
  | reset => exact tells_blank t.chunkSize t.chunkSize_pos

theorem Past.Tells.performAll (h : past.Tells t) (memory : Memory) (accesses : List Access) :
    (accesses.foldl (note t.chunkSize memory) past).Tells (t.performAll memory accesses) := by
  induction accesses generalizing t past with
  | nil => exact h
  | cons access accesses ih =>
    have hrest := ih (h.perform memory access)
    rw [chunkSize_perform] at hrest
    exact hrest

/-! ## Answers -/

/-- How a tape answers that has grown by chunks of a size in a memory and has a past. -/
structure Recalls (t : Tape) (chunkSize : Nat) (memory : Memory) (past : Past) : Prop where
  length : (t.size : Int) = chunkSize * (highest past.ensured / chunkSize + 1)
  get : ∀ index, Has t.size index →
    ∃ value, t.perform memory (.get index) = (.ok (some value), t) ∧
      (value.toNat : Int) = past.value (cellAt t.size index) % 256
  set : ∀ index value, Has t.size index → (t.perform memory (.set index value)).1 = .ok none
  /-- An index that the tape does not have is an error and changes nothing. The error says so,
  unless the index would be a word without a sign. -/
  missing : ∀ index access, ¬ Has t.size index →
    access = .get index ∨ (∃ value, access = .set index value) →
    ∃ error, t.perform memory access = (.error error, t) ∧
      if wordBound ≤ index ∧ index < 2 * wordBound then error = .numberTooLarge
      else error.IsOfIndex
  /-- Growing changes no cell. -/
  ensure : ∀ (index : Int) (place : Nat), past.Admits chunkSize memory index → place < t.size →
    (t.perform memory (.ensure index)).1 = .ok none ∧
      (t.perform memory (.ensure index)).2.get? place = t.get? place
  /-- An index that there is no room for is an error and changes nothing. -/
  refused : ∀ index, ¬ past.Admits chunkSize memory index →
    ∃ error, t.perform memory (.ensure index) = (.error (.noRoom error), t)

theorem Past.Tells.recalls (h : past.Tells t) (memory : Memory) :
    t.Recalls t.chunkSize memory past where
  length := h.size
  get index hindex := by
    obtain ⟨place, hcell, hget⟩ := get?_of_has hindex
    refine ⟨t.get place, ?_, by rw [← hcell]; exact h.cells place⟩
    simp only [Tape.perform, hget]
  set index value hindex := by
    obtain ⟨place, -, hget⟩ := get?_of_has hindex
    simp only [Tape.perform, hget]
  missing index access hindex haccess := by
    have hget := get?_eq_none_iff.2 hindex
    refine ⟨.missing index t.size, ?_, missing_cases index t.size⟩
    rcases haccess with rfl | ⟨value, rfl⟩
    · simp only [Tape.perform, hget]
    · simp only [Tape.perform, hget]
  ensure index place hroom hlt := by
    simp only [Tape.perform, ensure_eq_ok (h.admits_iff.1 hroom)]
    exact ⟨trivial, t.get?_extend index (Int.natCast_nonneg place) (Int.ofNat_lt.mpr hlt)⟩
  refused index hrefused := by
    obtain ⟨error, herror⟩ := Option.ne_none_iff_exists'.1 (mt h.admits_iff.2 hrefused)
    exact ⟨error, by simp only [Tape.perform, ensure_eq_error herror]⟩

theorem chunkSize_performAll (t : Tape) (memory : Memory) (accesses : List Access) :
    (t.performAll memory accesses).chunkSize = t.chunkSize := by
  induction accesses generalizing t with
  | nil => rfl
  | cons access accesses ih => exact (ih _).trans (t.chunkSize_perform memory access)

/-- **A tape recalls its past**, whatever has been asked of it: its length is that of the highest
index it was asked to have and there was room for, in whole chunks, and a cell has what was last
written to it. Neither the order of the indices it was asked to have nor their repetition
matters. -/
theorem recalls_past {chunkSize : Nat} (hpos : 0 < chunkSize) (memory : Memory)
    (accesses : List Access) :
    ((blank chunkSize hpos).performAll memory accesses).Recalls chunkSize memory
        (Past.ofAccesses chunkSize memory accesses) ∧
      ∀ accesses', (∀ index, index ∈ (Past.ofAccesses chunkSize memory accesses).ensured ↔
          index ∈ (Past.ofAccesses chunkSize memory accesses').ensured) →
        ((blank chunkSize hpos).performAll memory accesses).size
          = ((blank chunkSize hpos).performAll memory accesses').size := by
  have hrecalls (accesses : List Access) :
      ((blank chunkSize hpos).performAll memory accesses).Recalls chunkSize memory
        (Past.ofAccesses chunkSize memory accesses) := by
    have htells := (tells_blank chunkSize hpos).performAll memory accesses
    have hanswers := htells.recalls memory
    rwa [chunkSize_performAll] at hanswers
  refine ⟨hrecalls accesses, fun accesses' hsame => Int.ofNat_inj.1 ?_⟩
  rw [(hrecalls accesses).length, (hrecalls accesses').length, highest_congr hsame]

/-- A write to the last cell stays at its place when the tape grows, and neither a write that fails
nor an index that there is no room for is part of the past. -/
theorem recalls_past_regrown :
    0 < 2 ∧
      ((blank 2 (by decide)).performAll ⟨some 7⟩
        [.set (-1) 257, .ensure 5, .ensure 6, .ensure 3, .set 9 1, .set (-1) 300,
          .ensure 5]).Recalls 2 ⟨some 7⟩ ⟨[(5, 300), (1, 257)], [5, 3, 5]⟩ ∧
      ((blank 2 (by decide)).performAll ⟨some 7⟩
        [.set (-1) 257, .ensure 5, .ensure 6, .ensure 3, .set 9 1, .set (-1) 300, .ensure 5]).size
          = ((blank 2 (by decide)).performAll ⟨some 7⟩ [.ensure 3, .ensure 5]).size := by
  have hpast : Past.ofAccesses (2 : Nat) ⟨some 7⟩
      [.set (-1) 257, .ensure 5, .ensure 6, .ensure 3, .set 9 1, .set (-1) 300, .ensure 5]
        = ⟨[(5, 300), (1, 257)], [5, 3, 5]⟩ := by decide +kernel
  have hshort : Past.ofAccesses (2 : Nat) ⟨some 7⟩ [.ensure 3, .ensure 5] = ⟨[], [5, 3]⟩ := by
    decide +kernel
  obtain ⟨hrecalls, hsize⟩ := @recalls_past 2 (by decide) ⟨some 7⟩
    [.set (-1) 257, .ensure 5, .ensure 6, .ensure 3, .set 9 1, .set (-1) 300, .ensure 5]
  rw [hpast] at hrecalls
  refine ⟨by decide, hrecalls, hsize _ fun index => ?_⟩
  rw [hpast, hshort]
  simp only [List.mem_cons, List.not_mem_nil, or_false]
  omega

/-- Not every index that a tape does not have is reported as such: an index that would be a word
without a sign is a number that is too large. Nor can every tape be grown up to such an index: in a
memory with bounds it stays as it is. -/
theorem not_forall_missing_isOfIndex :
    (¬ ∀ (t : Tape) (memory : Memory) (index : Int), ¬ Has t.size index →
      ∃ error, t.perform memory (.get index) = (.error error, t) ∧ error.IsOfIndex) ∧
    ¬ ∀ (t : Tape) (memory : Memory) (index : Int),
      index < (t.perform memory (.ensure index)).2.size := by
  constructor
  · intro h
    obtain ⟨error, hanswer, hindex⟩ :=
      h (blank 4 (Nat.zero_lt_succ 3)) .unlimited wordBound (by decide)
    have hlarge : ((blank 4 (Nat.zero_lt_succ 3)).perform .unlimited (.get wordBound)).1
        = .error .numberTooLarge := rfl
    rw [hanswer] at hlarge
    cases hlarge
    exact hindex
  · intro h
    exact absurd (h (blank 4 (Nat.zero_lt_succ 3)) ⟨some 1000⟩ wordBound) (by decide)

end Tape

end TapeLang
