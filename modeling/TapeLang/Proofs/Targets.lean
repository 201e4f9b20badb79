import TapeLang.Proofs.Chunks
import TapeLang.Proofs.Limits
import TapeLang.Proofs.Simplifying
import TapeLang.Proofs.Touching

/-!
# Targets of code without jumps

In code without jumps the pointer goes the same way in every run, so that the code tells all the
targets that it needs (`targets`). A run that completes has grown the tape up to each of them, and
simplifying the code makes for no new ones (`Simplifies.targets_subset`). So there is room for the
folded code wherever there is for the code (`Machine.not_wantsRoom_of_fold`).
-/

set_option autoImplicit false

namespace TapeLang

/-! ## Sizes that there is room for -/

/-- The tape has a size already, or can be grown to it in whole chunks. -/
structure Tape.Affords (memory : Memory) (t : Tape) (size : Nat) : Prop where
  chunks : ∃ n, t.size + n * t.chunkSize = size
  room : t.size = size ∨ memory.objection? size = none

namespace Tape.Affords

variable {t u : Tape} {memory : Memory} {size : Nat} {target : Int}

theorem refl (memory : Memory) (t : Tape) : t.Affords memory t.size := ⟨⟨0, by simp⟩, .inl rfl⟩

/-- A tape with a target below a size is no longer than that size. -/
theorem extend (h : t.Affords memory size) (hlt : target < size) :
    (t.extend target).Affords memory size := by
  by_cases hhas : target < t.size
  · rwa [t.extend_of_lt target hhas]
  have hle := Int.not_lt.mp hhas
  obtain ⟨⟨n, hn⟩, hroom⟩ := h
  have hquot : (target.toNat - t.size) / t.chunkSize < n := by
    apply Nat.div_lt_of_lt_mul
    rw [Nat.mul_comm]
    omega
  obtain ⟨k, rfl⟩ := Nat.exists_eq_add_of_lt hquot
  refine ⟨⟨k, ?_⟩, .inr (hroom.resolve_left (by omega))⟩
  rw [t.size_extend_of_le target hle, t.chunkSize_extend, growth, ← hn]
  ring

theorem refusal?_eq_none (h : t.Affords memory size) (hlt : target < size) :
    t.refusal? memory target = none := by
  rw [refusal?_eq_none_iff]
  rcases h.room with hsize | hroom
  · left
    omega
  · right
    obtain ⟨n, hn⟩ := (h.extend hlt).chunks
    exact Memory.objection?_eq_none_of_le hroom (by omega) (by omega)

/-- An instruction keeps to a size that its target is below. -/
theorem touch {pointer : Int} {target? : Option Int} (h : t.Affords memory size)
    (htouches : t.Touches pointer target? u) (hlt : ∀ target ∈ target?, target < size) :
    u.Affords memory size := by
  have haffords : (target?.elim t t.extend).Affords memory size := by
    cases target? with
    | none => exact h
    | some target => exact h.extend (hlt target rfl)
  have hchunk : (target?.elim t t.extend).chunkSize = u.chunkSize := by
    rw [htouches.chunkSize]
    cases target? with
    | none => rfl
    | some target => exact t.chunkSize_extend target
  obtain ⟨hchunks, hroom⟩ := haffords
  rw [← htouches.size] at hchunks hroom
  rw [hchunk] at hchunks
  exact ⟨hchunks, hroom⟩

/-- What another tape has been grown to that was as long. -/
theorem grow (h : t.Affords memory u.size) (hchunk : u.chunkSize = t.chunkSize)
    (hroom : u.refusal? memory target = none) : t.Affords memory (u.extend target).size := by
  by_cases hhas : target < u.size
  · rwa [u.extend_of_lt target hhas]
  have hle := Int.not_lt.mp hhas
  obtain ⟨n, hn⟩ := h.chunks
  refine ⟨⟨n + ((target.toNat - u.size) / u.chunkSize + 1), ?_⟩, .inr ?_⟩
  · rw [u.size_extend_of_le target hle, growth, hchunk, ← hn]
    ring
  · exact ((refusal?_eq_none_iff u target memory).1 hroom).resolve_left hhas

end Tape.Affords

/-! ## Targets -/

/-- Where the pointer is behind an instruction. -/
def Instruction.moved (i : Instruction) (pointer : Int) : Int :=
  if i.kind = .shift then pointer + i.arg else pointer

/-- The targets of code without jumps, with the pointer at an index before it. -/
def targets (pointer : Int) : List Instruction → List Int
  | [] => []
  | i :: x =>
    (if i.kind.hasTarget then [pointer + i.arg] else []) ++ targets (i.moved pointer) x

variable {x y : List Instruction}

theorem targets_append (pointer : Int) (x y : List Instruction) :
    targets pointer (x ++ y)
      = targets pointer x ++ targets (x.foldl (fun p i => i.moved p) pointer) y := by
  induction x generalizing pointer with
  | nil => rfl
  | cons i x ih => rw [List.cons_append, targets, targets, ih, List.append_assoc, List.foldl_cons]

/-- **Simpler code has no other targets.** -/
theorem Simplifies.targets_subset (h : Simplifies x y) (pointer : Int) :
    targets pointer y ⊆ targets pointer x := by
  cases h with
  | merge x a c y hk =>
    rw [targets_append, targets_append]
    refine List.append_subset.2 ⟨List.subset_append_left .., ?_⟩
    refine List.Subset.trans ?_ (List.subset_append_right ..)
    rename_i kind
    cases kind with
    | shift => simp [targets, Instruction.moved, Kind.hasTarget, Int.add_assoc]
    | modify => simp [targets, Instruction.moved, Kind.hasTarget]
    | print => simp [targets, Instruction.moved, Kind.hasTarget]
    | _ => cases hk
  | @drop x i y hi =>
    rw [targets_append, targets_append]
    refine List.append_subset.2 ⟨List.subset_append_left .., ?_⟩
    refine List.Subset.trans ?_ (List.subset_append_right ..)
    have harg : i.arg = 0 := by
      simp only [Instruction.isIdle, Bool.and_eq_true, beq_iff_eq] at hi
      exact hi.2
    have hmoved (p : Int) : i.moved p = p := by simp [Instruction.moved, harg]
    rw [targets, hmoved]
    exact List.subset_append_right ..

theorem targets_fold_subset (pointer : Int) (x : List Instruction) :
    targets pointer (fold x) ⊆ targets pointer x :=
  fold_of_simplifies (p := fun y => targets pointer y ⊆ targets pointer x)
    (fun hrule hy => List.Subset.trans (hrule.targets_subset pointer) hy) (List.Subset.refl _)

theorem isFlat_fold (h : isFlat x) : isFlat (fold x) := by
  refine fold_of_simplifies (p := fun y => isFlat y) (fun hrule hy => ?_) h
  unfold isFlat at hy ⊢
  cases hrule with
  | merge x a c y hk => simpa using hy
  | drop x y hi =>
    simp only [List.all_append, List.all_cons, Bool.and_eq_true] at hy ⊢
    exact ⟨hy.1, hy.2.2⟩

/-! ## Steps -/

theorem View.pointer_act {checked : Bool} {i : Instruction} {v w : View}
    (h : v.act checked i = some w) : (w.pointer : Int) = i.moved v.pointer := by
  obtain ⟨kind, arg⟩ := i
  cases kind with
  | modify => obtain ⟨-, rfl⟩ := write_eq_some.1 h; rfl
  | shift =>
    obtain ⟨hnonneg, rfl⟩ := shift_eq_some.1 h
    exact Int.toNat_of_nonneg hnonneg
  | print => obtain ⟨-, rfl⟩ := print_eq_some.1 h; rfl
  | scan => obtain ⟨byte, _, -, rfl⟩ := scan_eq_some.1 h; rfl
  | clear => cases h; rfl
  | add => obtain ⟨_, -, -, rfl⟩ := transfer_eq_some.1 h; rfl
  | sub => obtain ⟨_, -, -, rfl⟩ := transfer_eq_some.1 h; rfl
  | beginLoop => cases h
  | endLoop => cases h

namespace Stepwise

variable {options : Options} {j : Nat} {s s' : State} {index : Int}

theorem drop_of_fetch? {i : Instruction} (h : Batch.fetch? x.toArray j = some i) :
    x.drop j = i :: x.drop (j + 1) := by
  have hlt := Int.ofNat_lt.mp (Batch.lt_size_of_fetch? h).1
  unfold Batch.fetch? at h
  rw [resolve?_of_nonneg (Int.natCast_nonneg j) (Int.ofNat_lt.mpr hlt), Int.toNat_natCast] at h
  simp only [List.getElem?_toArray, List.getElem?_eq_some_iff] at h
  obtain ⟨hlt', rfl⟩ := h
  exact List.drop_eq_getElem_cons hlt'

/-- A step of code without jumps grows the tape up to the target of an instruction, and the targets
of the others are still to come. -/
theorem straight_of_take (hflat : isFlat x) (hs : s.Inside)
    (h : take x.toArray options (j, s) = .resume index s') :
    ∃ i : Instruction, index = (j + 1 : Nat) ∧
      targets s.pointer (x.drop j)
        = (i.target? s).toList ++ targets s'.pointer (x.drop (j + 1)) ∧
      i.refusal? s = none ∧ s.tape.Touches s.pointer (i.target? s) s'.tape ∧ s'.Inside ∧
      s'.memory = s.memory := by
  have hmoves := moves_take x.toArray options (c := (j, s)) hs
  rw [h] at hmoves
  cases hmoves with
  | @next i _ _ _ hi hexec =>
    have hroom := refusal?_of_execute hexec
    have hmem := (Batch.lt_size_of_fetch? hi).2
    have hplain : i.kind.isLoop = false := by
      simpa using List.all_eq_true.1 hflat i (List.mem_toArray.1 hmem)
    obtain ⟨hact, hs', hindex⟩ := act_of_execute hplain hs hexec
    have htouches := touches_of_room hs hroom (!options.allowOverflows) j
    rw [hexec] at htouches
    have hpointer : s'.pointer = i.moved s.pointer := by
      rw [hs'.pointer_eq, hs.pointer_eq]
      exact View.pointer_act hact
    refine ⟨i, hindex, ?_, hroom, htouches, hs', memory_of_execute hexec⟩
    rw [drop_of_fetch? hi, targets, ← hpointer, Instruction.target?]
    split <;> rfl

end Stepwise

/-! ## Runs -/

/-- A run with code to come needs no larger tape than one of a size, and there is room for that. -/
structure StaysBelow (size : Nat) (x : List Instruction) (c : Int × State) : Prop where
  place : ∃ j : Nat, c.1 = j ∧ ∀ target ∈ targets c.2.pointer (x.drop j), target < size
  inside : c.2.Inside
  affords : c.2.tape.Affords c.2.memory size

/-- A run has grown a tape up to all targets of some code, but for those that are still to come. -/
structure HasReached (pointer : Int) (t : Tape) (x : List Instruction) (c : Int × State) :
    Prop where
  place : ∃ j : Nat, c.1 = j ∧ ∀ target ∈ targets pointer x,
    target ∈ targets c.2.pointer (x.drop j) ∨ target < c.2.tape.size
  inside : c.2.Inside
  chunkSize : c.2.tape.chunkSize = t.chunkSize
  affords : t.Affords c.2.memory c.2.tape.size

section
variable {options : Options} {c : Int × State} {index : Int} {s : State} {size : Nat}
  {pointer : Int} {t : Tape} (hflat : isFlat x)
include hflat

theorem StaysBelow.take (h : StaysBelow size x c)
    (hmove : Stepwise.take x.toArray options c = .resume index s) :
    StaysBelow size x (index, s) := by
  obtain ⟨_, s₀⟩ := c
  obtain ⟨⟨j, rfl, hbelow⟩, hinside, haffords⟩ := h
  obtain ⟨i, rfl, htargets, -, htouches, hs, hmemory⟩ :=
    Stepwise.straight_of_take hflat hinside hmove
  rw [htargets, List.forall_mem_append] at hbelow
  refine ⟨⟨j + 1, rfl, hbelow.2⟩, hs, ?_⟩
  simp only [hmemory]
  exact haffords.touch htouches fun target htarget => hbelow.1 target (Option.mem_toList.2 htarget)

omit hflat in
/-- There is room for whatever comes. -/
theorem StaysBelow.not_wantsRoom (h : StaysBelow size x c) :
    ¬ Walk.WantsRoom (Stepwise.take x.toArray options) c := by
  obtain ⟨_, s₀⟩ := c
  obtain ⟨⟨j, rfl, hbelow⟩, hinside, haffords⟩ := h
  rintro ⟨error, -, htake⟩
  have hmoves := Stepwise.moves_take x.toArray options (c := (j, s₀)) hinside
  rw [htake] at hmoves
  generalize hending : Batch.Resumption.ended (.failed (.noRoom error)) s₀ = r at hmoves
  cases hmoves with
  | @fails i f _ hi hfails =>
    cases hfails with
    | @noRoom error' hrefused =>
      obtain ⟨target, htarget, hrefused⟩ := Option.bind_eq_some_iff.1 hrefused
      rw [Stepwise.drop_of_fetch? hi, targets, List.forall_mem_append] at hbelow
      have hlt := hbelow.1 target (by
        unfold Instruction.target? at htarget
        split at htarget <;> cases htarget
        rename_i hkind
        simp [hkind])
      rw [haffords.refusal?_eq_none hlt] at hrefused
      cases hrefused
    | _ => cases hending
  | _ => cases hending

theorem HasReached.take (h : HasReached pointer t x c)
    (hmove : Stepwise.take x.toArray options c = .resume index s) :
    HasReached pointer t x (index, s) := by
  obtain ⟨_, s₀⟩ := c
  obtain ⟨⟨j, rfl, hreached⟩, hinside, hchunk, haffords⟩ := h
  obtain ⟨i, rfl, htargets, hroom, htouches, hs, hmemory⟩ :=
    Stepwise.straight_of_take hflat hinside hmove
  refine ⟨⟨j + 1, rfl, fun target htarget => ?_⟩, hs, htouches.chunkSize.trans hchunk, ?_⟩
  · rcases hreached target htarget with hcomes | hlt
    · rw [htargets, List.mem_append, Option.mem_toList] at hcomes
      rcases hcomes with hnow | hlater
      · right
        rw [htouches.size, hnow]
        exact s₀.tape.lt_size_extend target
      · exact .inl hlater
    · have hle : s₀.tape.size ≤ s.tape.size := htouches.size_le
      right
      simp only at hlt ⊢
      omega
  · rw [hmemory, htouches.size]
    unfold Instruction.refusal? at hroom
    cases htarget : i.target? s₀ with
    | none => exact haffords
    | some target =>
      rw [htarget] at hroom
      exact haffords.grow hchunk hroom

end

namespace Machine

variable {m : Machine} (hengine : m.options.engine = .stepwise) (hs : m.state.Inside)
include hengine hs

/-- Code without jumps that completes has grown the tape up to all its targets. -/
theorem reached_of_completes (hflat : isFlat x) {rep : Report} (h : (m.load x).Ends rep)
    (hending : rep.ending = .completed) :
    m.state.tape.Affords m.state.memory rep.state.tape.size ∧
      ∀ target ∈ targets m.state.pointer x, target < rep.state.tape.size := by
  have hfits : (m.load x).Fits (0, m.state) := fits_of_stepwise hengine hs
  obtain ⟨n, d, hafter, hstop⟩ := (ends_iff_walk hfits).1 ⟨rep.events, h⟩
  rw [show (m.load x).take = Stepwise.take x.toArray m.options from take_of_stepwise hengine]
    at hafter hstop
  have hstart : HasReached m.state.pointer m.state.tape x (0, m.state) :=
    ⟨⟨0, rfl, fun _ htarget => .inl htarget⟩, hs, rfl, .refl _ _⟩
  obtain ⟨⟨j, hj, hreached⟩, hinside, -, haffords⟩ :=
    Walk.keeps_of_moves (fun hc hmove => hc.take hflat hmove) hstart hafter
  rw [hending] at hstop
  obtain ⟨hsize, hstate⟩ := Stepwise.size_le_of_take hinside hstop
  have hdrop : x.drop j = [] := by
    rw [List.drop_eq_nil_iff]
    simpa [hj] using hsize
  rw [Stepwise.walk_next?] at hafter
  have hmemory : d.2.memory = m.state.memory := Stepwise.memory_of_after hafter
  rw [hstate, ← hmemory]
  refine ⟨haffords, fun target htarget => (hreached target htarget).resolve_left ?_⟩
  simp [hdrop, targets]

/-- Code whose targets are all below a size that there is room for never wants room. -/
theorem not_wantsRoom_of_targets (hflat : isFlat x) {size : Nat}
    (haffords : m.state.tape.Affords m.state.memory size)
    (hbelow : ∀ target ∈ targets m.state.pointer x, target < size) {n : Nat} {c : Int × State}
    (hafter : (m.load x).after n = some c) : ¬ Walk.WantsRoom (m.load x).take c := by
  unfold after at hafter
  rw [show (m.load x).take = Stepwise.take x.toArray m.options from take_of_stepwise hengine]
    at hafter ⊢
  have hstart : StaysBelow size x (0, m.state) := ⟨⟨0, rfl, hbelow⟩, hs, haffords⟩
  exact (Walk.keeps_of_moves (fun hc hmove => hc.take hflat hmove) hstart hafter).not_wantsRoom

/-- **There is room for the folded form of code that completes.** -/
theorem not_wantsRoom_of_fold (hflat : isFlat x) {rep : Report}
    (h : (m.load x).Ends rep) (hending : rep.ending = .completed) {n : Nat} {c : Int × State}
    (hafter : (m.load (fold x)).after n = some c) :
    ¬ Walk.WantsRoom (m.load (fold x)).take c := by
  obtain ⟨haffords, hbelow⟩ := reached_of_completes hengine hs hflat h hending
  exact not_wantsRoom_of_targets hengine hs (isFlat_fold hflat) haffords
    (fun target htarget => hbelow target (targets_fold_subset _ x htarget)) hafter

end Machine

end TapeLang
