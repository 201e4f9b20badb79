import Mathlib.Data.List.Chain
import TapeLang.Instruction.Fold

/-!
# Folded code is a normal form

`IsFolded` says that nothing is left to fold. Folding leads there (`isFolded_fold`), leaves such
code as it is (`IsFolded.fold_eq`), and does not care whether a part has been folded before
(`fold_append_fold`): pushing a sum does what pushing its terms one after the other does
(`push_push`), however far the merging goes back.
-/

set_option autoImplicit false

namespace TapeLang

/-- Two neighbours that do not merge. -/
def Instruction.Apart (i j : Instruction) : Prop := i.kind = j.kind → i.kind.isFoldable = false

/-- Nothing is left to fold. -/
structure IsFolded (code : List Instruction) : Prop where
  busy : ∀ i ∈ code, i.isIdle = false
  apart : code.IsChain Instruction.Apart

variable {kind : Kind} {a c : Int} {i : Instruction} {code older x y z : List Instruction}

theorem Instruction.Apart.symm {j : Instruction} (h : i.Apart j) : j.Apart i := by
  intro hkind
  rw [hkind]
  exact h hkind.symm

theorem Instruction.isIdle_of_isLoop (hi : i.kind.isLoop) : i.isIdle = false := by
  obtain ⟨kind, arg⟩ := i
  cases kind with
  | beginLoop => rfl
  | endLoop => rfl
  | _ => cases hi

theorem isIdle_of_isFoldable (hk : kind.isFoldable) :
    Instruction.isIdle ⟨kind, a⟩ = (a == 0) := by
  simp [Instruction.isIdle, hk]

/-! ## Pushing -/

/-- What `push` makes of code: the instruction merges with the last one, or is added. -/
theorem push_cases (code : List Instruction) (i : Instruction) :
    (∃ kind a c older, code = ⟨kind, a⟩ :: older ∧ i = ⟨kind, c⟩ ∧ kind.isFoldable ∧
      push code i = consUnlessIdle ⟨kind, a + c⟩ older) ∨
    ((∀ last ∈ code.head?, i.Apart last) ∧ push code i = consUnlessIdle i code) := by
  cases code with
  | nil => exact .inr ⟨by simp, rfl⟩
  | cons last older =>
    obtain ⟨kind, a⟩ := last
    obtain ⟨kind', c⟩ := i
    by_cases h : kind'.isFoldable && kind == kind'
    · have hpush : push (⟨kind, a⟩ :: older) ⟨kind', c⟩ = consUnlessIdle ⟨kind', a + c⟩ older :=
        if_pos h
      rw [Bool.and_eq_true, beq_iff_eq] at h
      obtain ⟨hk, rfl⟩ := h
      exact .inl ⟨kind, a, c, older, rfl, rfl, hk, hpush⟩
    · refine .inr ⟨?_, if_neg h⟩
      rintro last hlast
      obtain rfl : (⟨kind, a⟩ : Instruction) = last := by simpa using hlast
      intro hkind
      simpa [show kind' = kind from hkind] using h

theorem push_of_apart (h : ∀ last ∈ code.head?, i.Apart last) :
    push code i = consUnlessIdle i code := by
  rcases push_cases code i with ⟨kind, a, c, older, rfl, rfl, hk, -⟩ | ⟨-, hpush⟩
  · have hfalse : kind.isFoldable = false := h ⟨kind, a⟩ rfl rfl
    rw [hk] at hfalse
    cases hfalse
  · exact hpush

theorem push_of_merge (hk : kind.isFoldable) :
    push (⟨kind, a⟩ :: older) ⟨kind, c⟩ = consUnlessIdle ⟨kind, a + c⟩ older := by
  simp [push, hk]

theorem consUnlessIdle_of_idle (h : i.isIdle) : consUnlessIdle i code = code := if_pos h

theorem consUnlessIdle_of_busy (h : i.isIdle = false) : consUnlessIdle i code = i :: code := by
  simp [consUnlessIdle, h]

/-- Behind other instructions, a sum comes to be one instruction or none. -/
theorem push_consUnlessIdle (hk : kind.isFoldable)
    (h : ∀ d, ∀ last ∈ code.head?, Instruction.Apart ⟨kind, d⟩ last) :
    push (consUnlessIdle ⟨kind, a⟩ code) ⟨kind, c⟩ = consUnlessIdle ⟨kind, a + c⟩ code := by
  cases hidle : Instruction.isIdle ⟨kind, a⟩ with
  | false => rw [consUnlessIdle_of_busy hidle, push_of_merge hk]
  | true =>
    rw [consUnlessIdle_of_idle hidle, push_of_apart (h c)]
    rw [isIdle_of_isFoldable hk, beq_iff_eq] at hidle
    rw [hidle, Int.zero_add]

/-! ## Folded code -/

namespace IsFolded

theorem nil : IsFolded [] := ⟨by simp, .nil⟩

theorem tail (h : IsFolded (i :: code)) : IsFolded code :=
  ⟨fun j hj => h.busy j (List.mem_cons_of_mem i hj), h.apart.tail⟩

theorem apart_head (h : IsFolded (i :: code)) : ∀ next ∈ code.head?, i.Apart next :=
  (List.isChain_cons.1 h.apart).1

theorem reverse (h : IsFolded code) : IsFolded code.reverse :=
  ⟨by simpa using h.busy, List.isChain_reverse.2 (h.apart.imp fun _ _ => Instruction.Apart.symm)⟩

theorem consUnlessIdle (h : IsFolded code) (hi : ∀ next ∈ code.head?, i.Apart next) :
    IsFolded (consUnlessIdle i code) := by
  cases hidle : i.isIdle with
  | true => rwa [consUnlessIdle_of_idle hidle]
  | false =>
    rw [consUnlessIdle_of_busy hidle]
    exact ⟨List.forall_mem_cons.2 ⟨hidle, h.busy⟩, h.apart.cons hi⟩

theorem push (h : IsFolded code) (i : Instruction) : IsFolded (push code i) := by
  rcases push_cases code i with ⟨kind, a, c, older, rfl, rfl, -, hpush⟩ | ⟨hi, hpush⟩
  · rw [hpush]
    exact h.tail.consUnlessIdle h.apart_head
  · rw [hpush]
    exact h.consUnlessIdle hi

theorem foldl_push (h : IsFolded code) (y : List Instruction) :
    IsFolded (y.foldl TapeLang.push code) := by
  induction y generalizing code with
  | nil => exact h
  | cons i y ih => exact ih (h.push i)

/-- Pushing an idle instruction does nothing. -/
theorem push_idle (h : IsFolded code) (hi : i.isIdle) : TapeLang.push code i = code := by
  rcases push_cases code i with ⟨kind, a, c, older, rfl, rfl, hk, hpush⟩ | ⟨-, hpush⟩
  · rw [isIdle_of_isFoldable hk, beq_iff_eq] at hi
    subst hi
    rw [hpush, Int.add_zero, consUnlessIdle_of_busy (h.busy _ List.mem_cons_self)]
  · rw [hpush, consUnlessIdle_of_idle hi]

/-- **Pushing two neighbours of one kind** is pushing their sum. -/
theorem push_push (h : IsFolded code) (hk : kind.isFoldable) (a c : Int) :
    TapeLang.push (TapeLang.push code ⟨kind, a⟩) ⟨kind, c⟩ = TapeLang.push code ⟨kind, a + c⟩ := by
  rcases push_cases code ⟨kind, a⟩ with ⟨_, b, _, older, rfl, hi, -, hpush⟩ | ⟨hlast, hpush⟩
  · cases hi
    rw [hpush, push_of_merge hk, push_consUnlessIdle hk fun _ => h.apart_head, Int.add_assoc]
  · have hsum : ∀ last ∈ code.head?, Instruction.Apart ⟨kind, a + c⟩ last := hlast
    rw [hpush, push_of_apart hsum, push_consUnlessIdle hk fun _ => hlast]

/-- Folded code is pushed as it is, if its first instruction does not merge. -/
theorem foldl_push_eq (h : IsFolded z) (hz : ∀ first ∈ z.head?, ∀ last ∈ code.head?,
    first.Apart last) : z.foldl TapeLang.push code = z.reverse ++ code := by
  induction z generalizing code with
  | nil => rfl
  | cons i z ih =>
    have hpush : TapeLang.push code i = i :: code := by
      rw [push_of_apart (hz i rfl), consUnlessIdle_of_busy (h.busy i List.mem_cons_self)]
    have hnext : ∀ first ∈ z.head?, ∀ last ∈ (i :: code).head?, first.Apart last := by
      intro first hfirst last hlast
      obtain rfl : i = last := by simpa using hlast
      exact (h.apart_head first hfirst).symm
    rw [List.foldl_cons, hpush, ih h.tail hnext]
    simp

/-- Folding leaves folded code as it is. -/
theorem fold_eq (h : IsFolded z) : fold z = z := by
  rw [fold, h.foldl_push_eq (by simp)]
  simp

end IsFolded

/-! ## Folding -/

theorem isFolded_fold (x : List Instruction) : IsFolded (fold x) :=
  (IsFolded.nil.foldl_push x).reverse

/-- Behind folded code, an instruction may be pushed to what follows first. -/
theorem foldl_push_push (h : IsFolded code) (y : List Instruction) (i : Instruction) :
    (push y i).reverse.foldl push code = push (y.reverse.foldl push code) i := by
  have hcons (y : List Instruction) (i : Instruction) :
      (consUnlessIdle i y).reverse.foldl push code = push (y.reverse.foldl push code) i := by
    cases hidle : i.isIdle with
    | false => simp [consUnlessIdle_of_busy hidle]
    | true => rw [consUnlessIdle_of_idle hidle, (h.foldl_push y.reverse).push_idle hidle]
  rcases push_cases y i with ⟨kind, a, c, older, rfl, rfl, hk, hpush⟩ | ⟨-, hpush⟩
  · rw [hpush, hcons, ← (h.foldl_push older.reverse).push_push hk]
    simp
  · rw [hpush, hcons]

theorem foldl_push_fold (h : IsFolded code) (y : List Instruction) :
    (fold y).foldl push code = y.foldl push code := by
  induction y using List.reverseRecOn with
  | nil => rfl
  | append_singleton y i ih =>
    have hfold : fold (y ++ [i]) = (push (fold y).reverse i).reverse := fold_append y [i]
    rw [hfold, foldl_push_push h, List.reverse_reverse, ih]
    simp

/-- **A part may be folded before.** -/
theorem fold_append_fold (x y : List Instruction) : fold (x ++ fold y) = fold (x ++ y) := by
  rw [fold_append, fold_append, foldl_push_fold (isFolded_fold x).reverse]

theorem fold_fold_append (x y : List Instruction) : fold (fold x ++ y) = fold (x ++ y) := by
  rw [fold_append, fold_append, (isFolded_fold x).fold_eq]

/-- Folded code stays apart from what comes before, if it does not start with an instruction that
merges. -/
theorem fold_append_of_apart (h : IsFolded z)
    (hz : ∀ first ∈ z.head?, first.kind.isFoldable = false) (x : List Instruction) :
    fold (x ++ z) = fold x ++ z := by
  rw [fold_append, h.foldl_push_eq fun first hfirst _ _ _ => hz first hfirst]
  simp

end TapeLang
