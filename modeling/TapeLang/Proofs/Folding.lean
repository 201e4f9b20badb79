import TapeLang.Proofs.Follows

/-!
# Folding and meaning

Two neighbours of one foldable kind do what the merged instruction does, except that they may move
left of the first cell, or leave the range of a checked cell, on a way that the merged one does not
go. So a folded block follows the block (`Block.fold_follows`), and a block follows its folded form
up to such slips (`Block.follows_fold`).
-/

set_option autoImplicit false

namespace TapeLang

/-- The instruction is no jump, and a print has no negative count. -/
def Instruction.IsPlain (i : Instruction) : Prop :=
  i.kind.isLoop = false ∧ (i.kind = .print → 0 ≤ i.arg)

/-- A move fails, or a change of a checked cell. -/
def Result.Slips (checked : Bool) (r : Result) : Prop :=
  ∃ i v, r = .stuck i v ∧ (i.kind = .shift ∨ checked ∧ i.kind = .modify)

theorem Result.Slips.isEarly {checked : Bool} {r : Result} (h : r.Slips checked) : r.IsEarly := by
  obtain ⟨i, v, rfl, -⟩ := h
  exact isEarly_stuck i v

/-! ## Neighbours -/

section
variable {checked : Bool} {kind : Kind} {a b : Int}

open Meaning

theorem skip_follows_single {i : Instruction} (hi : i.isIdle) :
    Follows (Result.Slips checked) False skip (Single checked i) := by
  intro v n r h _
  obtain ⟨-, rfl⟩ := h
  exact ⟨1, _, .done (View.act_idle hi v), False.elim, .inl rfl⟩

theorem single_follows_skip {i : Instruction} (hi : i.isIdle) :
    Follows (fun _ => False) True (Single checked i) skip := by
  intro v n r h _
  cases h with
  | done h =>
    rw [View.act_idle hi v] at h
    cases h
    exact ⟨0, _, ⟨rfl, rfl⟩, fun _ => Nat.zero_le 1, .inl rfl⟩
  | stuck h => rw [View.act_idle hi v] at h; cases h

theorem kind_ne_scan (hk : kind.isFoldable) : kind ≠ .scan := by
  rintro rfl
  cases hk

variable (checked) in
/-- Where two neighbours succeed, the merged instruction does the same in one step. -/
theorem pair_follows_merged (hk : kind.isFoldable) (hp : kind = .print → 0 ≤ a ∧ 0 ≤ b) :
    Follows (fun _ => False) True
      ((Single checked ⟨kind, a⟩).AndThen (Single checked ⟨kind, b⟩))
      (Single checked ⟨kind, a + b⟩) := by
  intro v n r h hs
  have hscan := kind_ne_scan hk
  cases h with
  | both h₁ h₂ =>
    cases h₁ with
    | done ha =>
      cases h₂ with
      | done hb =>
        exact ⟨1, _, .done (View.act_append hk hp ha hb), fun _ => by omega, .inl rfl⟩
      | stuck _ => exact absurd (hs.resolve_right id) hscan
  | early h₁ he =>
    cases h₁ with
    | done _ => exact absurd rfl (he _)
    | stuck _ => exact absurd (hs.resolve_right id) hscan

theorem slips_of_act {arg : Int} {v : View} (hk : kind.isFoldable) (hp : kind ≠ .print)
    (h : v.act checked ⟨kind, arg⟩ = none) : (Result.stuck ⟨kind, arg⟩ v).Slips checked := by
  refine ⟨_, _, rfl, ?_⟩
  cases kind with
  | modify => exact .inr ⟨View.checked_of_act_modify h, rfl⟩
  | shift => exact .inl rfl
  | print => exact absurd rfl hp
  | _ => cases hk

variable (checked) in
/-- Where the merged instruction succeeds, two neighbours do the same, or one of them slips. -/
theorem merged_follows_pair (hk : kind.isFoldable) (hp : kind = .print → 0 ≤ a ∧ 0 ≤ b) :
    Follows (Result.Slips checked) False (Single checked ⟨kind, a + b⟩)
      ((Single checked ⟨kind, a⟩).AndThen (Single checked ⟨kind, b⟩)) := by
  intro v n r h hs
  by_cases hprint : kind = .print
  · -- prints do not slip, so both have to succeed
    subst hprint
    obtain ⟨ha₀, hb₀⟩ := hp rfl
    cases h with
    | done h =>
      obtain ⟨w, ha, hb⟩ := View.act_print_add ha₀ hb₀ h
      exact ⟨_, _, .both (.done ha) (.done hb), False.elim, .inl rfl⟩
    | stuck h =>
      rcases hs with hs | ⟨_, _, hr, hs⟩
      · cases hs
      · cases hr
        rcases hs with hs | ⟨-, hs⟩ <;> cases hs
  · have grows := (Meaning.grows_single checked ⟨kind, a + b⟩) v.printed h List.prefix_rfl
    cases ha : v.act checked ⟨kind, a⟩ with
    | none =>
      exact ⟨_, _, .early (.stuck ha) (Result.isEarly_stuck _ _), False.elim,
        .inr ⟨slips_of_act hk hprint ha, grows⟩⟩
    | some w =>
      cases hb : w.act checked ⟨kind, b⟩ with
      | none =>
        refine ⟨_, _, .both (.done ha) (.stuck hb), False.elim,
          .inr ⟨slips_of_act hk hprint hb, ?_⟩⟩
        refine List.IsPrefix.trans ?_ grows
        cases kind with
        | modify => obtain ⟨-, rfl⟩ := View.write_eq_some.1 ha; exact List.prefix_rfl
        | shift => obtain ⟨-, rfl⟩ := View.shift_eq_some.1 ha; exact List.prefix_rfl
        | print => exact absurd rfl hprint
        | _ => cases hk
      | some x =>
        have hx := View.act_append hk hp ha hb
        cases h with
        | done h =>
          rw [hx] at h
          cases h
          exact ⟨_, _, .both (.done ha) (.done hb), False.elim, .inl rfl⟩
        | stuck h => rw [hx] at h; cases h

end

/-! ## Folded blocks -/

namespace Block

theorem every_stepUnlessIdle {p : Instruction → Prop} {b : Block} {i : Instruction}
    (hb : b.Every p) (hi : p i) : (b.stepUnlessIdle i).Every p := by
  unfold stepUnlessIdle
  split
  · exact hb
  · exact ⟨hb, hi⟩

theorem isPlain_push {b : Block} {i : Instruction} (hb : b.Every Instruction.IsPlain)
    (hi : i.IsPlain) : (b.push i).Every Instruction.IsPlain := by
  rcases b.push_cases i with ⟨before, kind, a, c, rfl, rfl, -, hpush⟩ | ⟨-, hpush⟩
  · rw [hpush]
    obtain ⟨hbefore, hlast⟩ := hb
    exact every_stepUnlessIdle hbefore ⟨hi.1, fun hp => Int.add_nonneg (hlast.2 hp) (hi.2 hp)⟩
  · rw [hpush]
    exact every_stepUnlessIdle hb hi

theorem isPlain_fold {b : Block} (h : b.Every Instruction.IsPlain) :
    b.fold.Every Instruction.IsPlain := by
  induction b with
  | nil => trivial
  | step b i ih => exact isPlain_push (ih h.1) h.2
  | loop b body ihb ih => exact ⟨ihb h.1, ih h.2⟩

variable {checked : Bool}

theorem stepUnlessIdle_follows (b : Block) (i : Instruction) :
    Follows (fun _ => False) True ((b.runs checked).AndThen (Meaning.Single checked i))
      ((b.stepUnlessIdle i).runs checked) := by
  unfold stepUnlessIdle
  split
  · rename_i hi
    exact (Follows.andThen (by simp) (.refl _) (single_follows_skip hi)
      (Meaning.grows_single checked i)).trans (.of_imp fun _ _ _ => Meaning.andThen_skip.1)
  · exact .refl _

theorem follows_stepUnlessIdle (b : Block) (i : Instruction) :
    Follows (Result.Slips checked) False ((b.stepUnlessIdle i).runs checked)
      ((b.runs checked).AndThen (Meaning.Single checked i)) := by
  unfold stepUnlessIdle
  split
  · rename_i hi
    refine (Follows.of_imp fun _ _ _ => Meaning.andThen_skip.2).trans
      (Follows.andThen (fun _ => Result.Slips.isEarly) (.refl _) (skip_follows_single hi) ?_)
    intro printed v n r h hv
    obtain ⟨-, rfl⟩ := h
    exact hv
  · exact .refl _

theorem push_follows {b : Block} {i : Instruction} (hb : b.Every Instruction.IsPlain)
    (hi : i.IsPlain) :
    Follows (fun _ => False) True ((b.runs checked).AndThen (Meaning.Single checked i))
      ((b.push i).runs checked) := by
  rcases b.push_cases i with ⟨before, kind, a, c, rfl, rfl, hk, hpush⟩ | ⟨-, hpush⟩
  · rw [hpush]
    have hpair := pair_follows_merged checked hk fun hp => ⟨hb.2.2 hp, hi.2 hp⟩
    refine Follows.trans (.of_imp fun _ _ _ => Meaning.andThen_assoc.1) ?_
    refine Follows.trans ?_ (stepUnlessIdle_follows before _)
    exact Follows.andThen (by simp) (.refl _) hpair
      ((Meaning.grows_single _ _).andThen (Meaning.grows_single _ _))
  · rw [hpush]
    exact stepUnlessIdle_follows b i

theorem follows_push {b : Block} {i : Instruction} (hb : b.Every Instruction.IsPlain)
    (hi : i.IsPlain) :
    Follows (Result.Slips checked) False ((b.push i).runs checked)
      ((b.runs checked).AndThen (Meaning.Single checked i)) := by
  rcases b.push_cases i with ⟨before, kind, a, c, rfl, rfl, hk, hpush⟩ | ⟨-, hpush⟩
  · rw [hpush]
    have hpair := merged_follows_pair checked hk fun hp => ⟨hb.2.2 hp, hi.2 hp⟩
    refine (follows_stepUnlessIdle before _).trans ?_
    refine Follows.trans ?_ (.of_imp fun _ _ _ => Meaning.andThen_assoc.2)
    exact Follows.andThen (fun _ => Result.Slips.isEarly) (.refl _) hpair
      (Meaning.grows_single _ _)
  · rw [hpush]
    exact follows_stepUnlessIdle b i

/-- **A folded block follows the block**, in no more instructions. -/
theorem fold_follows {b : Block} (h : b.Every Instruction.IsPlain) :
    Follows (fun _ => False) True (b.runs checked) (b.fold.runs checked) := by
  induction b with
  | nil => exact .refl _
  | step b i ih =>
    refine Follows.trans ?_ (push_follows (isPlain_fold h.1) h.2)
    exact Follows.andThen (by simp) (ih h.1) (.refl _) (Meaning.grows_single checked i)
  | loop b body ihb ih =>
    have grows : (body.Turns checked (body.runs checked)).Grows :=
      fun printed => (body.grows checked printed).turns
    exact Follows.andThen (by simp) (ihb h.1)
      (Follows.turns (by simp) (ih h.2) (body.grows checked) (by simp)) grows

/-- **A block follows its folded form**, unless it slips. -/
theorem follows_fold {b : Block} (h : b.Every Instruction.IsPlain) :
    Follows (Result.Slips checked) False (b.fold.runs checked) (b.runs checked) := by
  have early : ∀ r : Result, r.Slips checked → r.IsEarly := fun _ => Result.Slips.isEarly
  induction b with
  | nil => exact .refl _
  | step b i ih =>
    refine (follows_push (isPlain_fold h.1) h.2).trans ?_
    exact Follows.andThen early (ih h.1) (.refl _) (Meaning.grows_single checked i)
  | loop b body ihb ih =>
    have grows : (body.fold.Turns checked (body.fold.runs checked)).Grows :=
      fun printed => (body.fold.grows checked printed).turns
    refine Follows.andThen early (ihb h.1) ?_ grows
    refine Follows.turns early (ih h.2) (body.fold.grows checked) ?_
    intro amount v h
    obtain ⟨_, _, hr, -⟩ := h
    cases hr

end Block

end TapeLang
