import Mathlib.Data.Set.Card
import TapeLang.Proofs.Brackets

/-!
# Brackets around a place

In a list whose brackets match, the depth before a place is the number of the brackets that wait
there to be closed (`Nested.ncard_pending`), which are those around the place, but for a bracket
that is closed at the place itself (`Nested.ncard_around`).
-/

set_option autoImplicit false

namespace TapeLang.Brackets

variable {α : Type}

section
variable (B : Brackets α)

/-- The brackets that open before a place and are closed behind it. -/
def around (xs : List α) (i : Nat) : Set Nat := {j | ∃ k, B.Pairs xs j k ∧ j < i ∧ i < k}

/-- The brackets that open before a place and are not closed before it. -/
def pending (xs : List α) (i : Nat) : Set Nat := {j | ∃ k, B.Pairs xs j k ∧ j < i ∧ i ≤ k}

theorem finite_pending (xs : List α) (i : Nat) : (B.pending xs i).Finite :=
  (Set.finite_lt_nat i).subset fun _ ⟨_, _, hlt, _⟩ => hlt

end

variable {B : Brackets α} {xs : List α} {x : α} {i j k : Nat}

theorem pending_zero : B.pending xs 0 = ∅ := by
  refine Set.eq_empty_iff_forall_notMem.2 ?_
  rintro j ⟨k, -, hj, -⟩
  exact Nat.not_lt_zero j hj

theorem pending_succ_of_plain (hi : xs[i]? = some x) (ho : B.opens x = false)
    (hc : B.closes x = false) : B.pending xs (i + 1) = B.pending xs i := by
  ext j
  constructor
  · rintro ⟨k, hp, hji, hik⟩
    have hj := hp.left_ne hi ho
    exact ⟨k, hp, by omega, by omega⟩
  · rintro ⟨k, hp, hji, hik⟩
    have hk := hp.right_ne hi hc
    exact ⟨k, hp, by omega, by omega⟩

theorem Nested.pending_succ_of_opens (h : B.Nested xs) (hi : xs[i]? = some x) (ho : B.opens x) :
    B.pending xs (i + 1) = insert i (B.pending xs i) := by
  obtain ⟨l, hl⟩ := h.exists_close hi ho
  ext j
  rw [Set.mem_insert_iff]
  constructor
  · rintro ⟨k, hp, hji, hik⟩
    by_cases hj : j = i
    · exact .inl hj
    · exact .inr ⟨k, hp, by omega, by omega⟩
  · rintro (rfl | ⟨k, hp, hji, hik⟩)
    · exact ⟨l, hl, Nat.lt_succ_self j, hl.lt⟩
    · have hk := hp.right_ne hi (B.closes_of_opens x ho)
      exact ⟨k, hp, by omega, by omega⟩

theorem Nested.pending_of_closes (h : B.Nested xs) (hi : xs[i]? = some x) (hc : B.closes x) :
    ∃ j, j ∉ B.pending xs (i + 1) ∧ B.pending xs i = insert j (B.pending xs (i + 1)) := by
  obtain ⟨j, hj⟩ := h.exists_open hi hc
  refine ⟨j, ?_, ?_⟩
  · rintro ⟨k, hp, -, hik⟩
    have hk := hj.right_unique hp
    omega
  · ext l
    rw [Set.mem_insert_iff]
    constructor
    · rintro ⟨k, hp, hli, hik⟩
      by_cases hk : k = i
      · subst hk
        exact .inl (hp.left_unique hj)
      · exact .inr ⟨k, hp, by omega, by omega⟩
    · rintro (rfl | ⟨k, hp, hli, hik⟩)
      · exact ⟨i, hj, hj.lt, Nat.le_refl i⟩
      · have hl := hp.left_ne hi (opens_of_closes hc)
        exact ⟨k, hp, by omega, by omega⟩

/-- **The depth is the number of the brackets that wait to be closed.** -/
theorem Nested.ncard_pending (h : B.Nested xs) (hi : i ≤ xs.length) :
    ((B.pending xs i).ncard : Int) = B.depth (xs.take i) := by
  induction i with
  | zero => rw [pending_zero, Set.ncard_empty, List.take_zero, depth_nil]; rfl
  | succ i ih =>
    have hget : xs[i]? = some xs[i] := List.getElem?_eq_getElem hi
    have hbefore := ih (Nat.le_of_succ_le hi)
    rw [List.take_succ_eq_append_getElem hi, depth_append, ← hbefore]
    cases ho : B.opens xs[i] with
    | true =>
      have hnew : i ∉ B.pending xs i := fun ⟨_, _, hlt, _⟩ => Nat.lt_irrefl i hlt
      rw [h.pending_succ_of_opens hget ho, Set.ncard_insert_of_notMem hnew (B.finite_pending xs i),
        depth_opens ho]
      rfl
    | false =>
      cases hc : B.closes xs[i] with
      | true =>
        obtain ⟨j, hnew, hsame⟩ := h.pending_of_closes hget hc
        rw [hsame, Set.ncard_insert_of_notMem hnew (B.finite_pending xs (i + 1)), depth_closes hc]
        omega
      | false => rw [pending_succ_of_plain hget ho hc, depth_plain ho hc, Int.add_zero]

/-- The brackets around one that closes are those that wait behind it, and the brackets around any
other member those that wait before it. -/
theorem around_eq (hi : xs[i]? = some x) :
    B.around xs i = B.pending xs (if B.closes x then i + 1 else i) := by
  ext j
  split
  · rename_i hc
    constructor
    · rintro ⟨k, hp, hji, hik⟩
      exact ⟨k, hp, by omega, by omega⟩
    · rintro ⟨k, hp, hji, hik⟩
      have hj := hp.left_ne hi (opens_of_closes hc)
      exact ⟨k, hp, by omega, by omega⟩
  · rename_i hc
    constructor
    · rintro ⟨k, hp, hji, hik⟩
      exact ⟨k, hp, by omega, by omega⟩
    · rintro ⟨k, hp, hji, hik⟩
      have hk := hp.right_ne hi (by simpa using hc)
      exact ⟨k, hp, by omega, by omega⟩

theorem Nested.ncard_around (h : B.Nested xs) (hi : xs[i]? = some x) :
    ((B.around xs i).ncard : Int) = B.depth (xs.take i) - if B.closes x then 1 else 0 := by
  obtain ⟨hlt, rfl⟩ := List.getElem?_eq_some_iff.1 hi
  rw [around_eq hi]
  split
  · rename_i hc
    rw [h.ncard_pending hlt, List.take_succ_eq_append_getElem hlt, depth_append, depth_closes hc]
    rfl
  · rw [h.ncard_pending hlt.le, Int.sub_zero]

/-- As many brackets are around the one of a pair as around the other. -/
theorem Nested.ncard_around_of_pairs (h : B.Nested xs) (hp : B.Pairs xs j k) :
    (B.around xs j).ncard = (B.around xs k).ncard := by
  obtain ⟨before, a, ys, b, behind, rfl, rfl, rfl, ha, hb, hy⟩ := pairs_iff.1 hp
  have htake : (before ++ a :: (ys ++ b :: behind)).take (before.length + 1 + ys.length)
      = before ++ a :: ys := by
    rw [Nat.add_assoc, List.take_length_add_append, Nat.add_comm 1, List.take_succ_cons,
      List.take_left]
  have hbegin := h.ncard_around (i := before.length) (x := a) (by simp)
  have hend := h.ncard_around (i := before.length + 1 + ys.length) (x := b) (by
    rw [List.getElem?_append_right (by omega)]
    simp [Nat.add_assoc, Nat.add_comm 1])
  rw [List.take_left, if_neg (by simp [B.closes_of_opens a ha])] at hbegin
  rw [htake, depth_append, depth_cons, depth_opens ha, hy.depth_eq, if_pos hb] at hend
  omega

end TapeLang.Brackets
