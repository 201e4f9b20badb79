import TapeLang.Tape

/-!
# Facts about the tape

Which indices a tape has (`isSome_resolve?_iff`), what each operation does to its size, and that
growing reaches the index asked for (`lt_size_extend`) without touching a cell (`get?_extend`).
Nothing is refused that there is room for once the tape has grown (`refusal?_eq_none_iff`), and in a
memory without bounds nothing at all (`refusal?_unlimited`).
-/

set_option autoImplicit false

namespace TapeLang

/-! ## Indices -/

theorem resolve?_lt {size place : Nat} {index : Int} (h : resolve? size index = some place) :
    place < size := by
  unfold resolve? at h
  split at h
  · split at h
    · cases h; omega
    · cases h
  · split at h
    · cases h; omega
    · cases h

theorem resolve?_of_nonneg {size : Nat} {index : Int} (h₀ : 0 ≤ index) (h : index < size) :
    resolve? size index = some index.toNat := by
  rw [resolve?, if_pos h₀, if_pos h]

theorem isSome_resolve?_iff (size : Nat) (index : Int) :
    (resolve? size index).isSome ↔ -(size : Int) ≤ index ∧ index < size := by
  unfold resolve?
  split
  · split
    · simp only [Option.isSome_some, true_iff]; omega
    · simp only [Option.isSome_none, Bool.false_eq_true, false_iff]; omega
  · split
    · simp only [Option.isSome_some, true_iff]; omega
    · simp only [Option.isSome_none, Bool.false_eq_true, false_iff]; omega

namespace Tape

variable (t : Tape) (index : Int)

/-! ## Sizes -/

@[simp] theorem size_blank (n : Nat) (h : 0 < n) : (blank n h).size = n := by
  simp [blank, size]

@[simp] theorem size_set (value : UInt8) : (t.set index value).size = t.size := by
  unfold set size
  split
  · exact Array.size_setIfInBounds
  · rfl

@[simp] theorem chunkSize_set (value : UInt8) : (t.set index value).chunkSize = t.chunkSize := by
  unfold set
  split <;> rfl

@[simp] theorem chunkSize_extend : (t.extend index).chunkSize = t.chunkSize := by
  unfold extend
  split <;> rfl

theorem extend_of_lt (h : index < t.size) : t.extend index = t := if_pos h

theorem size_extend_of_le (h : (t.size : Int) ≤ index) :
    (t.extend index).size = t.size + t.growth index := by
  rw [extend, if_neg (Int.not_lt.mpr h)]
  simp [size]

theorem size_le_extend : t.size ≤ (t.extend index).size := by
  by_cases h : index < t.size
  · exact Nat.le_of_eq (congrArg size (t.extend_of_lt index h)).symm
  · rw [size_extend_of_le t index (Int.not_lt.mp h)]
    exact Nat.le_add_right ..

theorem lt_size_extend : index < (t.extend index).size := by
  by_cases h : index < t.size
  · rw [t.extend_of_lt index h]; exact h
  · have hle : (t.size : Int) ≤ index := Int.not_lt.mp h
    have hdiv := Nat.lt_div_mul_add (a := index.toNat - t.size) t.chunkSize_pos
    rw [size_extend_of_le t index hle, growth, Nat.add_mul, Nat.one_mul]
    omega

/-- How far a tape grows depends on its length only. -/
theorem size_extend_congr {t u : Tape} (hchunk : t.chunkSize = u.chunkSize)
    (hsize : t.size = u.size) (index : Int) : (t.extend index).size = (u.extend index).size := by
  by_cases h : index < t.size
  · rw [t.extend_of_lt index h, u.extend_of_lt index (hsize ▸ h), hsize]
  · have hle := Int.not_lt.mp h
    rw [t.size_extend_of_le index hle, u.size_extend_of_le index (hsize ▸ hle), growth, growth,
      hchunk, hsize]

/-! ## Growing -/

variable (memory : Memory)

theorem refusal?_of_lt (h : index < t.size) : t.refusal? memory index = none := if_pos h

/-- There is room for the new cells if there is for the longer tape. -/
theorem refusal?_eq_none_iff :
    t.refusal? memory index = none ↔
      index < t.size ∨ memory.objection? (t.extend index).size = none := by
  unfold refusal?
  by_cases h : index < t.size
  · rw [if_pos h]
    exact iff_of_true rfl (.inl h)
  · rw [if_neg h, Option.or_eq_none_iff, t.size_extend_of_le index (Int.not_lt.mp h)]
    simp only [Memory.refusal?, Option.map_eq_none_iff, h, false_or]
    refine ⟨And.right, fun hroom => ⟨?_, hroom⟩⟩
    exact Memory.objection?_eq_none_of_le hroom (by omega) (by omega)

@[simp] theorem refusal?_unlimited : t.refusal? .unlimited index = none := by
  unfold refusal?
  split <;> rfl

/-- What is refused is something of a size that the memory has no room for. -/
theorem refusal?_cells {t : Tape} {index : Int} {memory : Memory} {error : RoomError}
    (h : t.refusal? memory index = some error) : memory.refusal? error.cells = some error := by
  have hcells {cells : Nat} (h : memory.refusal? cells = some error) : error.cells = cells := by
    obtain ⟨reason, -, rfl⟩ := Option.map_eq_some_iff.1 h
    rfl
  unfold refusal? at h
  split at h
  · cases h
  · rcases Option.or_eq_some_iff.1 h with h | ⟨-, h⟩
    · rw [hcells h, h]
    · rw [hcells h, h]

variable {t index memory}

theorem ensure_eq_ok (h : t.refusal? memory index = none) :
    t.ensure memory index = .ok (t.extend index) := by
  rw [ensure, h]

theorem ensure_eq_error {error : RoomError} (h : t.refusal? memory index = some error) :
    t.ensure memory index = .error error := by
  rw [ensure, h]

variable (t index)

/-! ## Cells -/

theorem get?_of_nonneg (h₀ : 0 ≤ index) (h : index < t.size) :
    t.get? index = t.cells[index.toNat]? := by
  rw [get?, resolve?_of_nonneg h₀ h]

/-- Growing leaves every cell as it is. -/
theorem get?_extend {i : Int} (h₀ : 0 ≤ i) (h : i < t.size) :
    (t.extend index).get? i = t.get? i := by
  have hgrow := t.size_le_extend index
  rw [get?_of_nonneg t i h₀ h, get?_of_nonneg (t.extend index) i h₀ (by omega)]
  unfold extend
  split
  · rfl
  · exact Array.getElem?_append_left (by unfold size at h; omega)

/-! ## Places -/

variable {t} {place : Nat}

theorem get?_of_lt (h : place < t.size) : t.get? place = some (t.get place) := by
  have hcell : t.get? place = t.cells[place]? :=
    t.get?_of_nonneg place (Int.natCast_nonneg place) (Int.ofNat_lt.mpr h)
  rw [get, hcell, Array.getElem?_eq_getElem h, Option.getD_some]

theorem get_of_le (h : t.size ≤ place) : t.get place = 0 := by
  have hnone : resolve? t.size place = none := by
    rw [resolve?, if_pos (Int.natCast_nonneg place), if_neg (by omega)]
  rw [get, get?, hnone, Option.getD_none]

theorem get_natCast (t : Tape) (place : Nat) : t.get place = t.cells[place]?.getD 0 := by
  by_cases h : place < t.size
  · rw [get, t.get?_of_nonneg place (Int.natCast_nonneg place) (Int.ofNat_lt.mpr h),
      Int.toNat_natCast]
  · rw [get_of_le (Nat.le_of_not_lt h), Array.getElem?_eq_none (Nat.le_of_not_lt h),
      Option.getD_none]

theorem get_set {k : Nat} (value : UInt8) (h : place < t.size) :
    (t.set place value).get k = if k = place then value else t.get k := by
  have hset : (t.set place value).cells = t.cells.setIfInBounds place value := by
    rw [set, resolve?_of_nonneg (Int.natCast_nonneg place) (Int.ofNat_lt.mpr h), Int.toNat_natCast]
  rw [get_natCast, get_natCast, hset, Array.getElem?_setIfInBounds]
  by_cases hk : k = place
  · rw [if_pos hk.symm, if_pos hk, if_pos (show place < t.cells.size from h), Option.getD_some]
  · rw [if_neg (Ne.symm hk), if_neg hk]

theorem get_blank (n : Nat) (h : 0 < n) (place : Nat) : (blank n h).get place = 0 := by
  rw [get_natCast, blank, Array.getElem?_replicate]
  split <;> rfl

/-- A cell that the tape gets by growing is zero, as it counted before. -/
theorem get_extend : (t.extend index).get place = t.get place := by
  by_cases h : place < t.size
  · rw [get, get, t.get?_extend index (Int.natCast_nonneg place) (Int.ofNat_lt.mpr h)]
  · have hle := Nat.le_of_not_lt h
    rw [get_of_le hle, get_natCast]
    unfold extend
    split
    · rw [Array.getElem?_eq_none hle, Option.getD_none]
    · rw [Array.getElem?_append_right hle, Array.getElem?_replicate]
      split <;> rfl

/-- A tape is told by its length, its cells and the number of cells by which it grows. -/
theorem eq_of_get {t u : Tape} (hchunk : t.chunkSize = u.chunkSize) (hsize : t.size = u.size)
    (h : ∀ place : Nat, t.get place = u.get place) : t = u := by
  obtain ⟨chunkSize, cells, hpos⟩ := t
  obtain ⟨_, cells', _⟩ := u
  obtain rfl := hchunk
  congr 1
  refine Array.ext hsize fun place hlt hlt' => ?_
  have hcell := h place
  rwa [get_natCast, get_natCast, Array.getElem?_eq_getElem hlt, Array.getElem?_eq_getElem hlt',
    Option.getD_some, Option.getD_some] at hcell

/-! ## Cells that are not zero -/

theorem mem_nonzero_iff {value : UInt8} :
    (place, value) ∈ t.nonzero ↔ value ≠ 0 ∧ t.get place = value := by
  rw [get_natCast, nonzero, List.mem_filterMap]
  constructor
  · intro h
    obtain ⟨⟨v, i⟩, hmem, hv⟩ := h
    rw [List.mem_zipIdx_iff_getElem?, Array.getElem?_toList] at hmem
    simp only at hv
    split at hv
    · cases hv
    · rename_i hne
      cases hv
      exact ⟨hne, by rw [hmem, Option.getD_some]⟩
  · intro h
    obtain ⟨hne, hget⟩ := h
    cases hcell : t.cells[place]? with
    | none =>
      rw [hcell, Option.getD_none] at hget
      exact absurd hget.symm hne
    | some v =>
      rw [hcell, Option.getD_some] at hget
      subst hget
      refine ⟨(v, place), ?_, if_neg hne⟩
      rw [List.mem_zipIdx_iff_getElem?, Array.getElem?_toList]
      exact hcell

/-- What a row of cells has beyond the end of another counts as zero. -/
theorem filterMap_zipIdx_congr {x y : List UInt8} (n : Nat)
    (h : ∀ k : Nat, x[k]?.getD 0 = y[k]?.getD 0) :
    (x.zipIdx n).filterMap (fun (v, i) => if v = 0 then none else some (i, v))
      = (y.zipIdx n).filterMap fun (v, i) => if v = 0 then none else some (i, v) := by
  induction x generalizing y n with
  | nil =>
    induction y generalizing n with
    | nil => rfl
    | cons b y ih =>
      have hb : b = 0 := (h 0).symm
      rw [List.zipIdx_cons, List.filterMap_cons, hb]
      exact ih (n + 1) fun k => h (k + 1)
  | cons a x ih =>
    cases y with
    | nil =>
      have ha : a = 0 := h 0
      have hrest := ih (y := []) (n + 1) fun k => h (k + 1)
      rw [List.zipIdx_cons, List.filterMap_cons, ha]
      exact hrest
    | cons b y =>
      have hab : a = b := h 0
      have hrest := ih (y := y) (n + 1) fun k => h (k + 1)
      rw [List.zipIdx_cons, List.zipIdx_cons, List.filterMap_cons, List.filterMap_cons, hab, hrest]

theorem nonzero_congr {t u : Tape} (h : ∀ place : Nat, t.get place = u.get place) :
    t.nonzero = u.nonzero := by
  refine filterMap_zipIdx_congr 0 fun k => ?_
  rw [Array.getElem?_toList, Array.getElem?_toList, ← get_natCast, ← get_natCast]
  exact h k

end Tape

end TapeLang
