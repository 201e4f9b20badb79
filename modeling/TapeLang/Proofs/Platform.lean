import TapeLang.Proofs.Fusing
import TapeLang.Proofs.Steps

/-!
# Platforms

A platform takes code instruction by instruction, from places where single instructions and the two
ends of loops lie; `Platform.next?` is one step of it. A block that lies on a platform is run as its
meaning says: each result of the block is reached in as many steps (`Platform.reaches`), and a block
without a result runs on for ever (`Platform.result_or_runs_on`).
-/

set_option autoImplicit false

namespace TapeLang

/-- A machine, and how its configurations are seen. -/
structure Platform (κ : Type) where
  /-- The next configuration; `none` where the machine stops. -/
  next? : κ → Option κ
  /-- Results outside a byte are failures. -/
  checked : Bool
  /-- A configuration stands at a place and shows a view. -/
  stands : κ → Nat → View → Prop
  /-- An instruction that is no jump lies at a place. -/
  holds : Nat → Instruction → Prop
  /-- A loop begins at the first place and ends at the second. -/
  loops : Nat → Nat → Prop
  act {c : κ} {j : Nat} {i : Instruction} {v w : View} :
    stands c j v → holds j i → v.act checked i = some w → ∃ d, next? c = some d ∧ stands d (j + 1) w
  halt {c : κ} {j : Nat} {i : Instruction} {v : View} :
    stands c j v → holds j i → v.act checked i = none → next? c = none
  jump {c : κ} {j k place : Nat} {v : View} :
    stands c place v → loops j k → place = j ∨ place = k →
      ∃ d, next? c = some d ∧ stands d ((if v.cell = 0 then k else j) + 1) v

namespace Platform

variable {κ : Type} (P : Platform κ)

/-- The block lies from a place on. -/
def Lies : Block → Nat → Prop
  | .nil, _ => True
  | .step b i, k => Lies b k ∧ P.holds (k + b.size) i
  | .loop b body, k =>
    Lies b k ∧ P.loops (k + b.size) (k + b.size + 1 + body.size) ∧
      Lies body (k + b.size + 1)

/-- A configuration shows the result of a block that ends before a place. -/
def Shows (place : Nat) (c : κ) : Result → Prop
  | .done v => P.stands c place v
  | .stuck i v => ∃ j, P.stands c j v ∧ P.holds j i ∧ v.act P.checked i = none
  | .spins amount v =>
    ∃ j, P.stands c j v ∧ P.checked = false ∧ P.loops j (j + 2) ∧
      P.holds (j + 1) ⟨.modify, amount⟩ ∧ Traps amount v.cell

variable {P} {c d : κ} {m n : Nat}

open Walk

/-! ## Results -/

section
variable {place : Nat} {r : Result}

theorem Shows.of_isEarly {place' : Nat} (h : P.Shows place c r) (hr : r.IsEarly) :
    P.Shows place' c r := by
  cases r with
  | done v => exact absurd rfl (hr v)
  | stuck i v => exact h
  | spins amount v => exact h

/-- A cell that is trapped never lets the machine out of the loop. -/
theorem isSome_after_of_traps {j : Nat} {amount : Int} {v : View} (hchecked : P.checked = false)
    (hloop : P.loops j (j + 2)) (hbody : P.holds (j + 1) ⟨.modify, amount⟩)
    (hc : P.stands c (j + 1) v) (ht : Traps amount v.cell) : (after P.next? n c).isSome := by
  induction n using Nat.strongRecOn generalizing c v with
  | ind n ih =>
    have hact : v.act P.checked ⟨.modify, amount⟩
        = some (v.put v.pointer (byteOf (v.cell.toNat + amount))) := by
      rw [View.act_modify_eq_some, hchecked]
      exact ⟨Bool.noConfusion, rfl⟩
    obtain ⟨c₁, h₁, hc₁⟩ := P.act hc hbody hact
    obtain ⟨c₂, h₂, hc₂⟩ := P.jump hc₁ hloop (.inr rfl)
    have ht' : Traps amount (v.put v.pointer (byteOf (v.cell.toNat + amount))).cell := by
      rw [View.cell_put]
      exact ht.add
    rw [if_neg ht'.ne_zero] at hc₂
    match n with
    | 0 => rfl
    | 1 =>
      rw [after_succ h₁]
      rfl
    | n + 2 =>
      rw [after_succ h₁, after_succ h₂]
      exact ih n (by omega) hc₂ ht'

theorem Shows.runs_on {amount : Int} {v : View} (h : P.Shows place c (.spins amount v)) :
    (after P.next? n c).isSome := by
  obtain ⟨j, hc, hchecked, hloop, hbody, ht⟩ := h
  obtain ⟨d, hd, hstands⟩ := P.jump hc hloop (.inl rfl)
  rw [if_neg ht.ne_zero] at hstands
  cases n with
  | zero => rfl
  | succ n =>
    rw [after_succ hd]
    exact isSome_after_of_traps hchecked hloop hbody hstands ht

end

/-! ## Blocks -/

/-- Each turn starts at one of the two ends of the loop. -/
theorem reaches_loop {f : Meaning} {j k place : Nat} {v : View} {r : Result}
    (hf : ∀ {c v n r}, P.stands c (j + 1) v → f v n r →
      ∃ d, after P.next? n c = some d ∧ P.Shows k d r)
    (hloop : P.loops j k) (hc : P.stands c place v) (hplace : place = j ∨ place = k)
    (h : f.Loop v n r) : ∃ d, after P.next? n c = some d ∧ P.Shows (k + 1) d r := by
  induction h generalizing c place with
  | exit hz =>
    obtain ⟨d, hd, hstands⟩ := P.jump hc hloop hplace
    rw [if_pos hz] at hstands
    exact ⟨d, after_succ hd, hstands⟩
  | again hz hbody _ ih =>
    obtain ⟨c₁, h₁, hc₁⟩ := P.jump hc hloop hplace
    rw [if_neg hz] at hc₁
    obtain ⟨c₂, h₂, hc₂⟩ := hf hc₁ hbody
    obtain ⟨d, hd, hshows⟩ := ih hc₂ (.inr rfl)
    refine ⟨d, ?_, hshows⟩
    rw [after_succ h₁, after_trans h₂]
    exact hd
  | early hz hbody he =>
    obtain ⟨c₁, h₁, hc₁⟩ := P.jump hc hloop hplace
    rw [if_neg hz] at hc₁
    obtain ⟨d, hd, hshows⟩ := hf hc₁ hbody
    exact ⟨d, (after_succ h₁).trans hd, hshows.of_isEarly he⟩

/-- **What a block comes to, the platform reaches**, in as many steps. -/
theorem reaches {b : Block} {k : Nat} {v : View} {r : Result} (hb : P.Lies b k)
    (hc : P.stands c k v) (h : b.runs P.checked v n r) :
    ∃ d, after P.next? n c = some d ∧ P.Shows (k + b.size) d r := by
  induction b generalizing c k v n r with
  | nil =>
    obtain ⟨rfl, rfl⟩ := h
    exact ⟨c, rfl, hc⟩
  | step b i ih =>
    obtain ⟨hb, hi⟩ := hb
    cases h with
    | both hbefore hsingle =>
      obtain ⟨c₁, h₁, hc₁⟩ := ih hb hc hbefore
      rw [after_trans h₁]
      cases hsingle with
      | done hact =>
        obtain ⟨d, hd, hstands⟩ := P.act hc₁ hi hact
        exact ⟨d, after_succ hd, hstands⟩
      | stuck hact => exact ⟨c₁, rfl, _, hc₁, hi, hact⟩
    | early hbefore he =>
      obtain ⟨d, hd, hshows⟩ := ih hb hc hbefore
      exact ⟨d, hd, hshows.of_isEarly he⟩
  | loop b body ihb ih =>
    obtain ⟨hb, hloop, hbody⟩ := hb
    cases h with
    | both hbefore hturns =>
      obtain ⟨c₁, h₁, hc₁⟩ := ihb hb hc hbefore
      rw [after_trans h₁]
      cases hturns with
      | loop h =>
        obtain ⟨d, hd, hshows⟩ := reaches_loop (fun hc h => ih hbody hc h) hloop hc₁ (.inl rfl) h
        have hsize : k + b.size + 1 + body.size + 1 = k + (Block.loop b body).size := by
          simp only [Block.size]
          omega
        exact ⟨d, hd, hsize ▸ hshows⟩
      | spin hchecked hshape ht =>
        subst hshape
        exact ⟨c₁, rfl, k + b.size, hc₁, hchecked, hloop, hbody.2, ht⟩
    | early hbefore he =>
      obtain ⟨d, hd, hshows⟩ := ihb hb hc hbefore
      exact ⟨d, hd, hshows.of_isEarly he⟩

/-- By strong induction on the number of steps: a round takes at least two of them. -/
theorem result_or_runs_on_loop {f : Meaning} {j k place : Nat} {v : View}
    (hf : ∀ {c v n r}, P.stands c (j + 1) v → f v n r →
      ∃ d, after P.next? n c = some d ∧ P.Shows k d r)
    (hres : ∀ {c v}, P.stands c (j + 1) v → ∀ n,
      (∃ m r, f v m r ∧ ¬ r.Spins) ∨ (after P.next? n c).isSome)
    (hloop : P.loops j k) (hc : P.stands c place v) (hplace : place = j ∨ place = k) :
    (∃ m r, f.Loop v m r ∧ ¬ r.Spins) ∨ (after P.next? n c).isSome := by
  induction n using Nat.strongRecOn generalizing c place v with
  | ind n ih =>
    by_cases hz : v.cell = 0
    · exact .inl ⟨1, _, .exit hz, Result.not_spins_done v⟩
    obtain ⟨c₁, h₁, hc₁⟩ := P.jump hc hloop hplace
    rw [if_neg hz] at hc₁
    cases n with
    | zero => exact .inr rfl
    | succ n =>
      rw [after_succ h₁]
      rcases hres hc₁ n with ⟨m, r, hbody, hspins⟩ | hsome
      · rcases r.done_or_isEarly with ⟨w, rfl⟩ | he
        · obtain ⟨c₂, h₂, hc₂⟩ := hf hc₁ hbody
          by_cases hm : n ≤ m
          · have hsome : (after P.next? m c₁).isSome := by rw [h₂]; rfl
            exact .inr (isSome_after_of_le hsome hm)
          · obtain ⟨l, rfl⟩ := Nat.le.dest (Nat.le_of_not_le hm)
            rcases ih l (by omega) hc₂ (.inr rfl) with ⟨m', r, hrest, hspins⟩ | hsome
            · exact .inl ⟨_, r, .again hz hbody hrest, hspins⟩
            · rw [after_trans h₂]
              exact .inr hsome
        · exact .inl ⟨_, r, .early hz hbody he, hspins⟩
      · exact .inr hsome

/-- **A block comes to a result, or the platform runs on.** -/
theorem result_or_runs_on {b : Block} {k : Nat} {v : View} (hb : P.Lies b k)
    (hc : P.stands c k v) (n : Nat) :
    (∃ m r, b.runs P.checked v m r ∧ ¬ r.Spins) ∨ (after P.next? n c).isSome := by
  induction b generalizing c k v n with
  | nil => exact .inl ⟨0, .done v, ⟨rfl, rfl⟩, Result.not_spins_done v⟩
  | step b i ih =>
    obtain ⟨hb, hi⟩ := hb
    rcases ih hb hc n with ⟨m, r, h, hspins⟩ | hsome
    · rcases r.done_or_isEarly with ⟨w, rfl⟩ | he
      · cases hact : w.act P.checked i with
        | none => exact .inl ⟨_, _, .both h (.stuck hact), Result.not_spins_stuck i w⟩
        | some x => exact .inl ⟨_, _, .both h (.done hact), Result.not_spins_done x⟩
      · exact .inl ⟨m, r, .early h he, hspins⟩
    · exact .inr hsome
  | loop b body ihb ih =>
    obtain ⟨hb, hloop, hbody⟩ := hb
    rcases ihb hb hc n with ⟨m, r, h, hspins⟩ | hsome
    · rcases r.done_or_isEarly with ⟨w, rfl⟩ | he
      · obtain ⟨c₁, h₁, hc₁⟩ := reaches hb hc h
        by_cases hm : n ≤ m
        · have hsome : (after P.next? m c).isSome := by rw [h₁]; rfl
          exact .inr (isSome_after_of_le hsome hm)
        · obtain ⟨l, rfl⟩ := Nat.le.dest (Nat.le_of_not_le hm)
          have hloops := result_or_runs_on_loop (n := l) (fun hc h => reaches hbody hc h)
            (fun hc n => ih hbody hc n) hloop hc₁ (.inl rfl)
          rcases hloops with ⟨m', r, hturns, hspins⟩ | hsome
          · exact .inl ⟨_, r, .both h (.loop hturns), hspins⟩
          · rw [after_trans h₁]
            exact .inr hsome
      · exact .inl ⟨m, r, .early h he, hspins⟩
    · exact .inr hsome

end Platform

end TapeLang
