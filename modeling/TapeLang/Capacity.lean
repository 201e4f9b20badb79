import TapeLang.SignedWord
import TapeLang.Text.ByteSize

/-!
# Capacity

Texts and tapes may be asked for in any size. A size that is no word is refused, and so is one that
the memory has no room for; what is negative takes no room.
-/

set_option autoImplicit false

namespace TapeLang

/-- Why something of a given size cannot be made. -/
inductive CapacityError where
  /-- The size is no word. -/
  | notAWord
  /-- The memory is smaller. -/
  | outOfMemory
deriving DecidableEq, Repr

/-- What is said of a text. Want of memory is not explained. -/
def CapacityError.message : CapacityError → String
  | notAWord => "cannot fit 'int' into an index-sized integer"
  | outOfMemory => ""

/-- Why there is no room for a number of cells. -/
structure RoomError where
  reason : CapacityError
  cells : Nat
deriving DecidableEq, Repr

/-- What is said of a tape. -/
def RoomError.message (e : RoomError) : String :=
  match e.reason with
  | .notAWord => "Maximum allowed dimension exceeded"
  | .outOfMemory =>
    "Unable to allocate " ++ ByteSize.text e.cells ++ " for an array with shape ("
      ++ toString e.cells ++ ",) and data type uint8"

/-- The memory that texts and tapes are made in. -/
structure Memory where
  /-- The most bytes that it has room for in one piece; `none` for one in which everything fits. -/
  room : Option Nat
deriving DecidableEq, Repr

namespace Memory

/-- The memory in which everything fits. -/
def unlimited : Memory := ⟨none⟩

/-- What stands against so many bytes in one piece. -/
def objection? (memory : Memory) (size : Int) : Option CapacityError :=
  match memory.room with
  | none => none
  | some room =>
    if !isWord size then some .notAWord
    else if room < size then some .outOfMemory
    else none

/-- What is no larger than something that fits, fits too. -/
theorem objection?_eq_none_of_le {memory : Memory} {m n : Int} (h : memory.objection? n = none)
    (h₀ : -n ≤ m) (hle : m ≤ n) : memory.objection? m = none := by
  unfold objection? at h ⊢
  cases hroom : memory.room with
  | none => rfl
  | some room =>
    simp only [hroom, Bool.not_eq_true'] at h ⊢
    cases hword : isWord n with
    | false => simp [hword] at h
    | true =>
      have hbounds := (isWord_iff n).1 hword
      have hword' : isWord m := by
        rw [isWord_iff]
        omega
      simp only [hword, hword', Bool.true_eq_false, if_false] at h ⊢
      split at h
      · cases h
      · exact if_neg (by omega)

/-- Why there is no room for so many cells, if there is none. -/
def refusal? (memory : Memory) (cells : Nat) : Option RoomError :=
  (memory.objection? cells).map fun reason => ⟨reason, cells⟩

end Memory

end TapeLang
