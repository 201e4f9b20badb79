import TapeLang.Proofs.Rounds

/-!
# Outcomes of single rounds

A round of the batch loop completes one instruction, or stops the loop before anything has changed
(`Batch.Outcome.Counts`). But for the limit, it is the same whatever the counter shows
(`Batch.step_later`). If the pointer is a word and on a cell, it stays so, and the loop stops for
few reasons only (`Batch.Takes`).
-/

set_option autoImplicit false

namespace TapeLang.Batch

variable {code : Array Instruction} {l l' : Loop} {i : Instruction} {n : Nat} {b : Int}

/-! ## The counter of the loop -/

/-- The loop with more instructions completed before. -/
def Loop.later (n : Nat) (l : Loop) : Loop := { l with steps := l.steps + n }

/-- The outcome with more instructions completed before. -/
def Outcome.later (n : Nat) : Outcome → Outcome
  | .next l => .next (l.later n)
  | .stop reason l => .stop reason (l.later n)

theorem Loop.proceed_later (n : Nat) (l : Loop) (index : Int) :
    (l.later n).proceed index = (l.proceed index).later n := by
  simp only [proceed, later, Nat.add_right_comm]

theorem withTarget_later {distance : Int} {act : Nat → Loop → Outcome}
    (hact : ∀ target, act target (l.later n) = (act target l).later n) :
    withTarget distance (l.later n) act = (withTarget distance l act).later n := by
  unfold withTarget
  simp only [hact, show (l.later n).pointer = l.pointer from rfl,
    show (l.later n).memory = l.memory from rfl]
  split
  · split
    · rfl
    · split <;> rfl
  · rfl

/-- What the loop makes of an instruction does not depend on the counter. -/
theorem execute_later (i : Instruction) (n : Nat) (l : Loop) :
    execute i (l.later n) = (execute i l).later n := by
  have hcurrent : (l.later n).current? = l.current? := rfl
  have hbranch (onZero : Bool) (index : Int) :
      branch onZero index (l.later n) = (branch onZero index l).later n := by
    unfold branch
    rw [hcurrent]
    cases l.current? with
    | none => rfl
    | some place => exact congrArg Outcome.next (l.proceed_later n _)
  have htransfer (sign distance : Int) :
      transfer sign distance (l.later n) = (transfer sign distance l).later n := by
    refine withTarget_later fun target => ?_
    rw [hcurrent]
    cases l.current? with
    | none => rfl
    | some place => exact congrArg Outcome.next (Loop.proceed_later n { l with memory := _ } _)
  obtain ⟨kind, arg⟩ := i
  cases kind with
  | modify =>
    show modify arg (l.later n) = (modify arg l).later n
    unfold modify
    rw [hcurrent]
    cases l.current? with
    | none => rfl
    | some place => exact congrArg Outcome.next (Loop.proceed_later n { l with memory := _ } _)
  | clear =>
    show clear (l.later n) = (clear l).later n
    unfold clear
    rw [hcurrent]
    cases l.current? with
    | none => rfl
    | some place => exact congrArg Outcome.next (Loop.proceed_later n { l with memory := _ } _)
  | shift =>
    show shift arg (l.later n) = (shift arg l).later n
    apply withTarget_later
    intro target
    exact congrArg Outcome.next (Loop.proceed_later n { l with pointer := _ } _)
  | print => rfl
  | scan => rfl
  | beginLoop => exact hbranch true _
  | endLoop => exact hbranch false _
  | add => exact htransfer 1 arg
  | sub => exact htransfer (-1) arg

/-- A round does the same with less of the budget left, unless that is used up. -/
theorem step_later {b' : Int} (hb : (0 ≤ b ∧ b ≤ (l.steps + n : Nat)) ↔ (0 ≤ b' ∧ b' ≤ l.steps)) :
    step code b (l.later n) = (step code b' l).later n := by
  unfold step
  rw [show (l.later n).index = l.index from rfl]
  by_cases hsize : (code.size : Int) ≤ l.index
  · rw [if_pos hsize, if_pos hsize]
    rfl
  rw [if_neg hsize, if_neg hsize]
  by_cases hlimit : 0 ≤ b' ∧ b' ≤ l.steps
  · rw [if_pos hlimit, if_pos (show 0 ≤ b ∧ b ≤ (l.later n).steps from hb.2 hlimit)]
    rfl
  · rw [if_neg hlimit, if_neg (show ¬ (0 ≤ b ∧ b ≤ (l.later n).steps) from mt hb.1 hlimit)]
    cases fetch? code l.index with
    | none => rfl
    | some i => exact execute_later i n l

/-! ## Rounds -/

/-- An instruction has been completed, or the loop stops and has not changed anything. -/
def Outcome.Counts (l : Loop) : Outcome → Prop
  | .next l' => l'.steps = l.steps + 1
  | .stop reason l' => reason ≠ .limit ∧ l' = l

theorem counts_withTarget {distance : Int} {act : Nat → Loop → Outcome}
    (hact : ∀ target, (act target l).Counts l) : (withTarget distance l act).Counts l := by
  unfold withTarget
  split
  · simp only
    split
    · exact ⟨Stop.noConfusion, rfl⟩
    · split
      · exact ⟨Stop.noConfusion, rfl⟩
      · exact hact _
  · exact ⟨Stop.noConfusion, rfl⟩

theorem counts_execute (i : Instruction) (l : Loop) : (execute i l).Counts l := by
  have hnoCell : (Outcome.stop l.noCell l).Counts l := ⟨Stop.noConfusion, rfl⟩
  have hbranch (onZero : Bool) (index : Int) : (branch onZero index l).Counts l := by
    unfold branch
    split
    · exact hnoCell
    · rfl
  have htransfer (sign distance : Int) : (transfer sign distance l).Counts l := by
    refine counts_withTarget fun target => ?_
    split
    · exact hnoCell
    · rfl
  obtain ⟨kind, arg⟩ := i
  cases kind with
  | modify =>
    show (modify arg l).Counts l
    unfold modify
    split
    · exact hnoCell
    · rfl
  | clear =>
    show (clear l).Counts l
    unfold clear
    split
    · exact hnoCell
    · rfl
  | shift =>
    show (shift arg l).Counts l
    unfold shift
    exact counts_withTarget fun _ => rfl
  | print => exact ⟨Stop.noConfusion, rfl⟩
  | scan => exact ⟨Stop.noConfusion, rfl⟩
  | beginLoop => exact hbranch true _
  | endLoop => exact hbranch false _
  | add => exact htransfer 1 arg
  | sub => exact htransfer (-1) arg

/-- The limit is the only reason to stop that the budget has a part in. -/
theorem step_cases (code : Array Instruction) (b : Int) (l : Loop) :
    ((0 ≤ b ∧ b ≤ l.steps) ∧ step code b l = .stop .limit l) ∨ (step code b l).Counts l := by
  unfold step
  split
  · exact .inr ⟨Stop.noConfusion, rfl⟩
  · split
    · rename_i hlimit
      exact .inl ⟨hlimit, rfl⟩
    · split
      · exact .inr (counts_execute _ l)
      · exact .inr ⟨Stop.noConfusion, rfl⟩

theorem step_ne_limit (h : ¬ (0 ≤ b ∧ b ≤ l.steps)) : step code b l ≠ .stop .limit l' := by
  intro hstop
  obtain ⟨hlimit, -⟩ | hcounts := step_cases code b l
  · exact h hlimit
  · rw [hstop] at hcounts
    exact hcounts.1 rfl

/-- A round that completes an instruction is counted, and has been within the budget. -/
theorem steps_of_next (h : step code b l = .next l') :
    ¬ (0 ≤ b ∧ b ≤ l.steps) ∧ l'.steps = l.steps + 1 := by
  constructor
  · intro hlimit
    unfold step at h
    rw [if_pos hlimit] at h
    split at h <;> cases h
  · obtain ⟨-, hstop⟩ | hcounts := step_cases code b l
    · rw [h] at hstop
      cases hstop
    · rw [h] at hcounts
      exact hcounts

/-- A round that stops the loop has not changed anything. -/
theorem eq_of_stop {reason : Stop} (h : step code b l = .stop reason l') : l' = l := by
  obtain ⟨-, hstop⟩ | hcounts := step_cases code b l
  · rw [h] at hstop
    cases hstop
    rfl
  · rw [h] at hcounts
    exact hcounts.2

/-! ## Instructions -/

/-- What the loop makes of an instruction, if its pointer is a word and on a cell. -/
inductive Takes (i : Instruction) (l : Loop) : Outcome → Prop
  | next {l' : Loop} : l'.steps = l.steps + 1 → l'.memory.size = l.memory.size →
      0 ≤ l'.pointer → l'.pointer < l.memory.size → isWord l'.pointer → Takes i l (.next l')
  | print : i.kind = .print → Takes i l (.stop .print l)
  | scan : i.kind = .scan → Takes i l (.stop .scan l)
  | underflow : i.kind.hasTarget → wrap (l.pointer + i.arg) < 0 → Takes i l (.stop .underflow l)
  | grow : i.kind.hasTarget → 0 ≤ wrap (l.pointer + i.arg) →
      l.memory.size ≤ wrap (l.pointer + i.arg) → Takes i l (.stop .grow l)

section
variable (h₀ : 0 ≤ l.pointer) (hlt : l.pointer < l.memory.size) (hword : isWord l.pointer)
include h₀ hlt hword

theorem takes_proceed (i : Instruction) {memory : Array UInt8} (hsize : memory.size = l.memory.size)
    (index : Int) : Takes i l (.next ({ l with memory }.proceed index)) :=
  .next rfl hsize h₀ hlt hword

omit h₀ hlt in
theorem takes_withTarget {act : Nat → Loop → Outcome} (hkind : i.kind.hasTarget)
    (hact : ∀ target : Nat, target < l.memory.size → isWord target → Takes i l (act target l)) :
    Takes i l (withTarget i.arg l act) := by
  unfold withTarget
  rw [if_pos hword]
  by_cases hneg : wrap (l.pointer + i.arg) < 0
  · simp only [if_pos hneg]
    exact .underflow hkind hneg
  · by_cases hsize : (l.memory.size : Int) ≤ wrap (l.pointer + i.arg)
    · simp only [if_neg hneg, if_pos hsize]
      exact .grow hkind (Int.not_lt.mp hneg) hsize
    · simp only [if_neg hneg, if_neg hsize]
      obtain ⟨target, htarget⟩ := Int.eq_ofNat_of_zero_le (Int.not_lt.mp hneg)
      rw [htarget] at hsize ⊢
      apply hact
      · rw [Int.toNat_natCast]
        omega
      · rw [Int.toNat_natCast, ← htarget]
        exact isWord_wrap _

theorem takes_execute (i : Instruction) : Takes i l (execute i l) := by
  have hcurrent : l.current? = some l.pointer.toNat := resolve?_of_nonneg h₀ hlt
  have hproceed {memory : Array UInt8} := @takes_proceed l h₀ hlt hword i memory
  obtain ⟨kind, arg⟩ := i
  have htransfer (sign : Int) (hkind : kind.hasTarget) :
      Takes ⟨kind, arg⟩ l (transfer sign arg l) := by
    apply takes_withTarget hword hkind
    intro target _ _
    simp only [hcurrent]
    exact hproceed (by simp) _
  cases kind with
  | modify =>
    simp only [execute, modify, hcurrent]
    exact hproceed (by simp) _
  | clear =>
    simp only [execute, clear, hcurrent]
    exact hproceed (by simp) _
  | beginLoop =>
    simp only [execute, branch, hcurrent]
    exact hproceed rfl _
  | endLoop =>
    simp only [execute, branch, hcurrent]
    exact hproceed rfl _
  | shift =>
    show Takes ⟨.shift, arg⟩ l (shift arg l)
    apply takes_withTarget (i := ⟨.shift, arg⟩) hword rfl
    intro target htarget hword'
    exact .next rfl rfl (Int.natCast_nonneg target) (Int.ofNat_lt.mpr htarget) hword'
  | print => exact .print rfl
  | scan => exact .scan rfl
  | add => exact htransfer 1 rfl
  | sub => exact htransfer (-1) rfl

end

/-- The loop stops before it has changed anything. -/
theorem eq_of_takes_stop {reason : Stop} (h : Takes i l (.stop reason l')) : l' = l := by
  cases h <;> rfl

end TapeLang.Batch
