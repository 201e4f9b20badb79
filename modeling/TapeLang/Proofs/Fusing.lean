import TapeLang.Proofs.Folding
import TapeLang.Proofs.Loops

/-!
# Fusing and meaning

A fused block follows the block up to idle moves (`Block.fuse_follows`), and on cells that wrap
around the block follows its fused form up to loops that never end (`Block.follows_fuse`).
-/

set_option autoImplicit false

namespace TapeLang

/-- A move of a zero cell fails, as its target is left of the first cell. -/
def Result.IsIdleMove (r : Result) : Prop :=
  ∃ i v, r = .stuck i v ∧ (i.kind = .add ∨ i.kind = .sub) ∧ v.cell = 0 ∧ v.pointer + i.arg < 0

/-- A loop is entered that never ends. -/
def Result.Spins (r : Result) : Prop := ∃ amount v, r = .spins amount v

theorem Result.IsIdleMove.isEarly {r : Result} (h : r.IsIdleMove) : r.IsEarly := by
  obtain ⟨i, v, rfl, -⟩ := h
  exact isEarly_stuck i v

theorem Result.not_spins_done (v : View) : ¬ (Result.done v).Spins := by
  intro h
  obtain ⟨amount, w, h⟩ := h
  cases h

theorem Result.not_spins_stuck (i : Instruction) (v : View) : ¬ (Result.stuck i v).Spins := by
  intro h
  obtain ⟨amount, w, h⟩ := h
  cases h

theorem Result.Slips.not_spins {checked : Bool} {r : Result} (h : r.Slips checked) :
    ¬ r.Spins := by
  obtain ⟨i, v, rfl, -⟩ := h
  exact not_spins_stuck i v

theorem Result.IsIdleMove.not_spins {r : Result} (h : r.IsIdleMove) : ¬ r.Spins := by
  obtain ⟨i, v, rfl, -⟩ := h
  exact not_spins_stuck i v

theorem Result.Spins.isEarly {r : Result} (h : r.Spins) : r.IsEarly := by
  obtain ⟨amount, v, rfl⟩ := h
  exact isEarly_spins amount v

/-! ## Single loops -/

variable {checked : Bool} {i : Instruction} {v : View} {n : Nat}

/-- A loop over foldable instructions fails for no reason that counts here. -/
theorem exists_done_of_turns {body : Block} {r : Result} (hb : body.Every (·.kind.isFoldable))
    (hloops : body.EveryLoop fun _ => True) (h : body.Turns checked (body.runs checked) v n r)
    (hr : r.IsSettled ∨ r.IsIdleMove) :
    ∃ w, r = .done w ∧ (body.runs checked).Loop v n (.done w) := by
  have hspins (amount : Int) (u : View) :
      ¬ ((Result.spins amount u).IsSettled ∨ (Result.spins amount u).IsIdleMove) := by
    intro h
    rcases h with h | ⟨_, _, h, -⟩ <;> cases h
  cases h with
  | spin _ _ _ => exact absurd hr (hspins _ _)
  | loop h =>
    rcases r.done_or_isEarly with ⟨w, rfl⟩ | he
    · exact ⟨w, rfl, h⟩
    · rcases (Block.fails hb hloops).loop h he with ⟨i, u, rfl, hi⟩ | ⟨amount, u, rfl, -⟩
      · rcases hr with hr | ⟨_, _, hr, hkind, -⟩
        · rw [Result.IsSettled] at hr
          rw [hr] at hi
          cases hi
        · cases hr
          rcases hkind with hkind | hkind <;> rw [hkind] at hi <;> cases hi
      · exact absurd hr (hspins _ _)

/-- A move follows the loops that move their cell, unless it is an idle one. -/
theorem single_follows_moves {sign distance : Int} {body : Block}
    (hb : body.Moves sign distance) (hd : distance ≠ 0) (hi : i.IsMove sign distance) :
    Follows Result.IsIdleMove True (body.Turns checked (body.runs checked))
      (Meaning.Single checked i) := by
  have hevery : body.Every (·.kind.isFoldable) := by
    rcases hb with rfl | rfl <;> simp [goFirst, countFirst, Block.Every, Kind.isFoldable]
  have hloops : body.EveryLoop fun _ => True := by
    rcases hb with rfl | rfl <;> trivial
  intro v n r h hr
  obtain ⟨w, rfl, hloop⟩ := exists_done_of_turns hevery hloops h hr
  obtain ⟨rfl, ⟨hz, hw⟩ | ⟨-, hw⟩⟩ := (loop_moves_done hb hd hi.sign_eq).1 hloop
  · -- the loop is not entered, while the instruction needs its target
    rw [hw]
    by_cases hp : v.pointer + distance < 0
    · have hstuck : v.act checked i = none := by rw [hi.act_eq, View.transfer, if_pos hp]
      refine ⟨0, _, .stuck hstuck, fun _ => Nat.zero_le _, .inr ⟨?_, List.prefix_rfl⟩⟩
      exact ⟨i, v, rfl, hi.kind_eq, hz, by rw [hi.arg_eq]; exact hp⟩
    · have hplace : ((v.pointer + distance).toNat : Int) = v.pointer + distance := by omega
      have hdone : v.transfer checked sign distance = some v :=
        View.transfer_of_cell_eq_zero hz hplace
      rw [← hi.act_eq] at hdone
      exact ⟨1, _, .done hdone, fun _ => by omega, .inl rfl⟩
  · rw [← hi.act_eq] at hw
    exact ⟨1, _, .done hw, fun _ => by omega, .inl rfl⟩

/-- A `clear` follows the loops that only add an amount to their cell. -/
theorem single_follows_clears {amount : Int} :
    Follows Result.IsIdleMove True
      ((Block.nil.step ⟨.modify, amount⟩).Turns checked
        ((Block.nil.step ⟨.modify, amount⟩).runs checked))
      (Meaning.Single checked ⟨.clear, 0⟩) := by
  have hevery : (Block.nil.step ⟨.modify, amount⟩).Every (·.kind.isFoldable) := ⟨trivial, rfl⟩
  intro v n r h hr
  obtain ⟨w, rfl, hloop⟩ := exists_done_of_turns hevery trivial h hr
  have hn : 1 ≤ n := by cases hloop <;> omega
  exact ⟨1, _, .done (congrArg some (loop_clears hloop).symm), fun _ => hn, .inl rfl⟩

/-- The other way round, on cells that wrap around. -/
theorem moves_follows_single {sign distance : Int} {body : Block}
    (hb : body.Moves sign distance) (hd : distance ≠ 0) (hi : i.IsMove sign distance) :
    Follows Result.Spins False (Meaning.Single false i)
      (body.Turns false (body.runs false)) := by
  intro v n r h hr
  cases h with
  | @done _ w h =>
    rw [hi.act_eq] at h
    refine ⟨_, _, .loop ((loop_moves_done hb hd hi.sign_eq).2 ⟨rfl, ?_⟩), False.elim, .inl rfl⟩
    by_cases hz : v.cell = 0
    · obtain ⟨place, hp, -⟩ := View.transfer_eq_some.1 h
      rw [View.transfer_of_cell_eq_zero hz hp, Option.some.injEq] at h
      exact .inl ⟨hz, h.symm⟩
    · exact .inr ⟨hz, h⟩
  | stuck _ =>
    rcases hr with hr | ⟨_, _, hr⟩
    · rcases hi with ⟨-, rfl⟩ | ⟨-, rfl⟩ <;> cases hr
    · cases hr

theorem clears_follows_single {amount : Int} :
    Follows Result.Spins False (Meaning.Single false ⟨.clear, 0⟩)
      ((Block.nil.step ⟨.modify, amount⟩).Turns false
        ((Block.nil.step ⟨.modify, amount⟩).runs false)) := by
  intro v n r h _
  cases h with
  | done h =>
    cases h
    by_cases ht : Traps amount v.cell
    · exact ⟨0, _, .spin rfl rfl ht, False.elim, .inr ⟨⟨amount, v, rfl⟩, List.prefix_rfl⟩⟩
    · obtain ⟨k, hk⟩ := exists_rounds ht
      obtain ⟨m, hloop⟩ := exists_loop_of_rounds hk
      exact ⟨m, _, .loop hloop, False.elim, .inl rfl⟩
  | stuck h => cases h

/-! ## Fused blocks -/

namespace Block

/-- **A fused block follows the block**, in no more instructions, up to idle moves. -/
theorem fuse_follows {b : Block} (h : b.Every (·.isIdle = false)) :
    Follows Result.IsIdleMove True (b.runs checked) (b.fuse.runs checked) := by
  have early : ∀ r : Result, r.IsIdleMove → r.IsEarly := fun _ => Result.IsIdleMove.isEarly
  induction b with
  | nil => exact .refl _
  | step b i ih =>
    exact Follows.andThen early (ih h.1) (.refl _) (Meaning.grows_single checked i)
  | loop b body ihb ih =>
    have grows : (body.Turns checked (body.runs checked)).Grows :=
      fun printed => (body.grows checked printed).turns
    unfold fuse
    split
    · rename_i i hi
      refine Follows.andThen early (ihb h.1) ?_ grows
      rcases fuse?_fuse_eq_some hi with ⟨amount, rfl, rfl⟩ | ⟨sign, distance, hmove, hbody⟩
      · exact single_follows_clears
      · exact single_follows_moves hbody (distance_ne_zero hbody h.2) hmove
    · refine Follows.andThen early (ihb h.1) ?_ grows
      refine Follows.turns early (ih h.2) (body.grows checked) ?_
      intro amount v h
      obtain ⟨_, _, hr, -⟩ := h
      cases hr

/-- **A block follows its fused form**, on cells that wrap around, unless it enters a loop that
never ends. -/
theorem follows_fuse {b : Block} (h : b.Every (·.isIdle = false)) :
    Follows Result.Spins False (b.fuse.runs false) (b.runs false) := by
  have early : ∀ r : Result, r.Spins → r.IsEarly := fun _ => Result.Spins.isEarly
  induction b with
  | nil => exact .refl _
  | step b i ih =>
    exact Follows.andThen early (ih h.1) (.refl _) (Meaning.grows_single false i)
  | loop b body ihb ih =>
    unfold fuse
    split
    · rename_i i hi
      refine Follows.andThen early (ihb h.1) ?_ (Meaning.grows_single false i)
      rcases fuse?_fuse_eq_some hi with ⟨amount, rfl, rfl⟩ | ⟨sign, distance, hmove, hbody⟩
      · exact clears_follows_single
      · exact moves_follows_single hbody (distance_ne_zero hbody h.2) hmove
    · rename_i hnone
      refine Follows.andThen early (ihb h.1) ?_ fun printed => (body.fuse.grows false printed).turns
      refine Follows.turns early (ih h.2) (body.fuse.grows false) ?_
      -- such a body would have been fused
      intro amount v _ hbody
      rw [hbody] at hnone
      cases hnone

end Block

end TapeLang
