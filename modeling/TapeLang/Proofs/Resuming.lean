import TapeLang.Proofs.Outcomes

/-!
# Budgets of the batch loop

A call of the batch loop can be cut anywhere. With a budget it always stops; if not because of the
limit, then a larger budget changes nothing; and otherwise it has completed as many instructions as
the budget allows, and what it leaves is all that another call needs to go on (`loop_resumes`). No
index has to be in its array for this.
-/

set_option autoImplicit false

namespace TapeLang.Batch

/-- A call of the loop stops, for a reason and in a state. -/
def Stops (code : Array Instruction) (budget : Int) (l : Loop) (reason : Stop) (l' : Loop) : Prop :=
  ∃ fuel, loop code budget fuel l = (some reason, l')

/-- A budget leaves at least as much as another; a negative one is no limit. -/
def Allows (b' b : Int) : Prop := b' < 0 ∨ (0 ≤ b ∧ b ≤ b')

variable {code : Array Instruction} {b b' : Int} {l l' l₁ : Loop} {reason reason' : Stop}

theorem Loop.later_inj {n : Nat} (h : l.later n = l'.later n) : l = l' := by
  obtain ⟨_, _, _, _⟩ := l
  obtain ⟨_, _, _, _⟩ := l'
  simpa [later] using h

/-- A round that a budget allows is the same with a larger one. -/
theorem step_of_allows (h : Allows b' b) (hstep : step code b l ≠ .stop .limit l) :
    step code b' l = step code b l := by
  unfold step at hstep ⊢
  by_cases hsize : (code.size : Int) ≤ l.index
  · rw [if_pos hsize, if_pos hsize]
  · rw [if_neg hsize] at hstep ⊢
    have hopen : ¬ (0 ≤ b ∧ b ≤ l.steps) := fun hlimit => hstep (if_pos hlimit)
    have hopen' : ¬ (0 ≤ b' ∧ b' ≤ l.steps) := by
      rcases h with hneg | hle <;> omega
    rw [if_neg hsize, if_neg hopen, if_neg hopen']

/-! ## Calls -/

namespace Stops

theorem of_stop (h : step code b l = .stop reason l') : Stops code b l reason l' :=
  ⟨1, by rw [loop, h]⟩

theorem of_next (h : step code b l = .next l₁) (hrest : Stops code b l₁ reason l') :
    Stops code b l reason l' := by
  obtain ⟨fuel, hrest⟩ := hrest
  exact ⟨fuel + 1, by rw [loop, h]; exact hrest⟩

/-- What holds where the loop stops, and holds before a round if it holds behind it, holds where the
call begins. -/
theorem induct {motive : Loop → Prop} (h : Stops code b l reason l')
    (stop : ∀ l, step code b l = .stop reason l' → motive l)
    (next : ∀ l l₁, step code b l = .next l₁ → motive l₁ → motive l) : motive l := by
  obtain ⟨fuel, h⟩ := h
  induction fuel generalizing l with
  | zero => cases h
  | succ fuel ih =>
    rw [loop] at h
    cases hstep : step code b l with
    | next l₁ =>
      rw [hstep] at h
      exact next l l₁ hstep (ih h)
    | stop reason₁ l₁ =>
      rw [hstep] at h
      cases h
      exact stop l hstep

theorem eq_of_step {l₂ : Loop} (h : Stops code b l reason l')
    (hstep : step code b l = .stop reason' l₂) : reason' = reason ∧ l₂ = l' := by
  obtain ⟨_ | fuel, h⟩ := h
  · cases h
  · rw [loop, hstep] at h
    cases h
    exact ⟨rfl, rfl⟩

theorem behind (h : Stops code b l reason l') (hstep : step code b l = .next l₁) :
    Stops code b l₁ reason l' := by
  obtain ⟨_ | fuel, h⟩ := h
  · cases h
  · rw [loop, hstep] at h
    exact ⟨fuel, h⟩

/-- A call stops once. -/
theorem unique {l₂ : Loop} (h : Stops code b l reason l') (h' : Stops code b l reason' l₂) :
    reason = reason' ∧ l' = l₂ := by
  refine h.induct (motive := fun l => Stops code b l reason' l₂ → reason = reason' ∧ l' = l₂)
    (fun l hstep h' => h'.eq_of_step hstep) (fun l l₁ hstep ih h' => ih (h'.behind hstep)) h'

/-- The counter does not matter, but for the budget that it leaves. -/
theorem later (h : Stops code b l reason l') (n : Nat) (hb : 0 ≤ b) :
    Stops code (b + n) (l.later n) reason (l'.later n) := by
  have hstep (l : Loop) : step code (b + n) (l.later n) = (step code b l).later n :=
    step_later (by push_cast; omega)
  refine h.induct (motive := fun l => Stops code (b + n) (l.later n) reason (l'.later n))
    (fun l hstop => ?_) (fun l l₁ hnext ih => ?_)
  · exact of_stop (by rw [hstep, hstop]; rfl)
  · exact of_next (by rw [hstep, hnext]; rfl) ih

/-- A larger budget changes nothing for a call that does not stop because of the limit. -/
theorem of_allows (h : Stops code b l reason l') (hreason : reason ≠ .limit) (hb : Allows b' b) :
    Stops code b' l reason l' := by
  refine h.induct (motive := fun l => Stops code b' l reason l') (fun l hstop => ?_)
    (fun l l₁ hnext ih => ?_)
  · refine of_stop ((step_of_allows hb ?_).trans hstop)
    rw [hstop]
    rintro ⟨⟩
    exact hreason rfl
  · refine of_next ((step_of_allows hb ?_).trans hnext) ih
    rw [hnext]
    exact Outcome.noConfusion

/-- A call that stops because of the limit goes on with a larger budget. -/
theorem resume {l₂ : Loop} (h : Stops code b l .limit l') (hb : Allows b' b)
    (hrest : Stops code b' l' reason l₂) : Stops code b' l reason l₂ := by
  refine h.induct (motive := fun l => Stops code b' l reason l₂) (fun l hstop => ?_)
    (fun l l₁ hnext ih => ?_)
  · obtain ⟨-, hlimit⟩ | hcounts := step_cases code b l
    · rw [hstop] at hlimit
      cases hlimit
      exact hrest
    · rw [hstop] at hcounts
      exact absurd rfl hcounts.1
  · refine of_next ((step_of_allows hb ?_).trans hnext) ih
    rw [hnext]
    exact Outcome.noConfusion

/-- At the limit, the budget has been used up. -/
theorem steps_eq {m : Nat} (h : Stops code m l .limit l') (hl : l.steps ≤ m) : l'.steps = m := by
  refine h.induct (motive := fun l => l.steps ≤ m → l'.steps = m) (fun l hstop hle => ?_)
    (fun l l₁ hnext ih hle => ih ?_) hl
  · obtain ⟨hlimit, hstop'⟩ | hcounts := step_cases code m l
    · rw [hstop] at hstop'
      cases hstop'
      omega
    · rw [hstop] at hcounts
      exact absurd rfl hcounts.1
  · obtain ⟨hopen, hsteps⟩ := steps_of_next hnext
    omega

/-- Without a limit, a call does what it does with any budget that is not used up. -/
theorem of_lt {k : Nat} (h : Stops code b l reason l') (hb : b < 0) (hk : l'.steps < k) :
    Stops code k l reason l' := by
  have hsame {l : Loop} (hle : l.steps ≤ l'.steps) : step code k l = step code b l :=
    (step_of_allows (.inl hb) (step_ne_limit (by omega))).symm
  refine (h.induct (motive := fun l => l.steps ≤ l'.steps ∧ Stops code k l reason l')
    (fun l hstop => ?_) (fun l l₁ hnext ih => ?_)).2
  · obtain ⟨hlimit, -⟩ | hcounts := step_cases code b l
    · omega
    · rw [hstop] at hcounts
      obtain ⟨-, rfl⟩ := hcounts
      exact ⟨Nat.le_refl _, of_stop ((hsame (Nat.le_refl _)).trans hstop)⟩
  · obtain ⟨-, hsteps⟩ := steps_of_next hnext
    have hle : l.steps ≤ l'.steps := by omega
    exact ⟨hle, of_next ((hsame hle).trans hnext) ih.2⟩

end Stops

/-- With a budget, a call always stops. -/
theorem exists_stops (code : Array Instruction) (m : Nat) (l : Loop) :
    ∃ reason l', Stops code m l reason l' := by
  induction hk : m - l.steps generalizing l with
  | zero =>
    cases hstep : step code m l with
    | stop reason l' => exact ⟨reason, l', .of_stop hstep⟩
    | next l₁ =>
      obtain ⟨hopen, -⟩ := steps_of_next hstep
      omega
  | succ k ih =>
    cases hstep : step code m l with
    | stop reason l' => exact ⟨reason, l', .of_stop hstep⟩
    | next l₁ =>
      obtain ⟨-, hsteps⟩ := steps_of_next hstep
      obtain ⟨reason, l', hrest⟩ := ih l₁ (by omega)
      exact ⟨reason, l', .of_next hstep hrest⟩

/-- **A call of the batch loop can be cut anywhere.** It stops with any budget. If that is not
because of the limit, it stops so with a larger budget; and if it is, it has completed as many
instructions as the budget allows, and a call with another budget that goes on from there comes to
what one call comes to with both together. Without a budget it does what it does with any that is
large enough. -/
theorem loop_resumes (code : Array Instruction) (index pointer : Int) (memory : Array UInt8)
    (m n : Nat) :
    let l : Loop := { index, pointer, memory }
    (∃ reason l', Stops code m l reason l') ∧
    (∀ reason l', Stops code m l reason l' → reason ≠ .limit →
      Stops code (m + n : Nat) l reason l') ∧
    (∀ l', Stops code m l .limit l' → l'.steps = m ∧ ∀ reason l'',
      Stops code n { l' with steps := 0 } reason l'' ↔
        Stops code (m + n : Nat) l reason (l''.later m)) ∧
    ∀ b < 0, ∀ reason l', Stops code b l reason l' ↔
      ∃ enough : Nat, ∀ k ≥ enough, Stops code (k : Nat) l reason l' := by
  intro l
  have hmore : Allows (m + n : Nat) m := .inr (by omega)
  refine ⟨exists_stops code m l, fun reason l' h hreason => h.of_allows hreason hmore,
    fun l' h => ?_, fun b hb reason l' => ⟨fun h => ?_, fun h => ?_⟩⟩
  · have hsteps := h.steps_eq (Nat.zero_le m)
    have hl' : Loop.later m { l' with steps := 0 } = l' := by
      rw [Loop.later, Nat.zero_add, ← hsteps]
    refine ⟨hsteps, fun reason l'' => ?_⟩
    have hgoesOn {reason : Stop} {l'' : Loop}
        (hpart : Stops code n { l' with steps := 0 } reason l'') :
        Stops code (m + n : Nat) l reason (l''.later m) := by
      have hrest := hpart.later m (Int.natCast_nonneg n)
      rw [hl', Int.add_comm, ← Int.natCast_add] at hrest
      exact h.resume hmore hrest
    refine ⟨hgoesOn, fun hwhole => ?_⟩
    obtain ⟨reason₁, l₁, hpart⟩ := exists_stops code n { l' with steps := 0 }
    obtain ⟨rfl, hsame⟩ := hwhole.unique (hgoesOn hpart)
    rwa [Loop.later_inj hsame]
  · exact ⟨l'.steps + 1, fun k hk => h.of_lt hb hk⟩
  · obtain ⟨enough, h⟩ := h
    have hfirst := h enough (Nat.le_refl _)
    have hsecond := h (enough + 1) (Nat.le_succ _)
    refine hfirst.of_allows ?_ (.inl hb)
    rintro rfl
    have hsteps := hfirst.steps_eq (Nat.zero_le _)
    have hsteps' := hsecond.steps_eq (Nat.zero_le _)
    omega

/-- A call that is cut right before a print, which is another reason to stop. -/
theorem loop_resumes_print :
    let code : Array Instruction := #[⟨.modify, 3⟩, ⟨.print, 1⟩]
    let l : Loop := { index := 0, pointer := 0, memory := #[255] }
    let l' : Loop := { index := 1, pointer := 0, memory := #[2], steps := 1 }
    Stops code 1 l .limit l' ∧ Stops code 2 l .print l' ∧ Stops code (2 + 5 : Nat) l .print l' ∧
      (∀ reason l'', Stops code 5 { l' with steps := 0 } reason l'' ↔
        Stops code (1 + 5 : Nat) l reason (l''.later 1)) ∧
      ((-1 : Int) < 0 ∧ ∃ enough : Nat, ∀ k ≥ enough, Stops code (k : Nat) l .print l') := by
  intro code l l'
  have hlimit : Stops code 1 l .limit l' := ⟨2, by dsimp only [code, l, l']; rfl⟩
  have hprint : Stops code 2 l .print l' := ⟨2, by dsimp only [code, l, l']; rfl⟩
  have hendless : Stops code (-1) l .print l' := ⟨2, by dsimp only [code, l, l']; rfl⟩
  obtain ⟨-, -, hcut, hwithout⟩ := loop_resumes code 0 0 #[255] 1 5
  obtain ⟨-, hlarger, -⟩ := loop_resumes code 0 0 #[255] 2 5
  exact ⟨hlimit, hprint, hlarger _ _ hprint (by decide), (hcut l' hlimit).2, by decide,
    (hwithout (-1) (by decide) _ _).1 hendless⟩

end TapeLang.Batch
