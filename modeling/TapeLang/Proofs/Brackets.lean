/-!
# Matching brackets

Brackets in a list, whatever its members are. `Nested` says that the brackets of a list match, and
`Pairs` that two places hold a bracket and the one that closes it. Counting the brackets that are
open (`depth`) shows that a bracket has one partner at most (`Pairs.left_unique`,
`Pairs.right_unique`); in a nested list it has one (`Nested.exists_pair`).
-/

set_option autoImplicit false

namespace TapeLang

/-- The members of a list that open a bracket, and those that close one. -/
structure Brackets (α : Type) where
  opens : α → Bool
  closes : α → Bool
  closes_of_opens : ∀ a, opens a → closes a = false

namespace Brackets

variable {α : Type}

/-- What stands between two places. -/
def between (xs : List α) (j k : Nat) : List α := (xs.take k).drop (j + 1)

section
variable (B : Brackets α)

/-- Every bracket has its partner. -/
inductive Nested : List α → Prop
  | nil : Nested []
  | snoc {xs : List α} {a : α} :
      Nested xs → B.opens a = false → B.closes a = false → Nested (xs ++ [a])
  | wrap {xs ys : List α} {a b : α} :
      Nested xs → Nested ys → B.opens a → B.closes b → Nested (xs ++ a :: (ys ++ [b]))

/-- A bracket opens at the first place, and the one that closes it is at the second. -/
def Pairs (xs : List α) (j k : Nat) : Prop :=
  ∃ a b, xs[j]? = some a ∧ xs[k]? = some b ∧ B.opens a ∧ B.closes b ∧ j < k ∧
    B.Nested (between xs j k)

/-- How many more brackets open than close. -/
def depth (xs : List α) : Int := xs.countP B.opens - xs.countP B.closes

end

variable {B : Brackets α} {xs ys zs : List α} {a b : α} {j k : Nat}

theorem opens_of_closes (h : B.closes a) : B.opens a = false := by
  cases ho : B.opens a with
  | false => rfl
  | true => simp [B.closes_of_opens a ho] at h

/-! ## Depth -/

@[simp] theorem depth_nil : B.depth [] = 0 := rfl

@[simp] theorem depth_append : B.depth (xs ++ ys) = B.depth xs + B.depth ys := by
  simp only [depth, List.countP_append]; omega

theorem depth_cons : B.depth (a :: xs) = B.depth [a] + B.depth xs := by
  rw [← depth_append, List.singleton_append]

theorem depth_opens (h : B.opens a) : B.depth [a] = 1 := by
  simp [depth, h, B.closes_of_opens a h]

theorem depth_closes (h : B.closes a) : B.depth [a] = -1 := by
  simp [depth, h, opens_of_closes h]

theorem depth_plain (ho : B.opens a = false) (hc : B.closes a = false) : B.depth [a] = 0 := by
  simp [depth, ho, hc]

namespace Nested

theorem depth_eq (h : B.Nested xs) : B.depth xs = 0 := by
  induction h with
  | nil => rfl
  | snoc _ ho hc ih => rw [depth_append, ih, depth_plain ho hc]; rfl
  | wrap _ _ ho hc ih₁ ih₂ =>
    rw [depth_append, depth_cons, depth_append, ih₁, ih₂, depth_opens ho, depth_closes hc]; rfl

theorem depth_take (h : B.Nested xs) (n : Nat) : 0 ≤ B.depth (xs.take n) := by
  induction h generalizing n with
  | nil => simp
  | @snoc xs a _ ho hc ih =>
    rw [List.take_append, depth_append]
    have h₁ := ih n
    cases n - xs.length with
    | zero => simpa using h₁
    | succ m => simp [depth_plain ho hc, h₁]
  | @wrap xs ys a b _ _ ho hc ih₁ ih₂ =>
    rw [List.take_append, depth_append]
    have h₁ := ih₁ n
    cases n - xs.length with
    | zero => simpa using h₁
    | succ m =>
      have h₂ := ih₂ m
      rw [List.take_succ_cons, depth_cons, List.take_append, depth_append, depth_opens ho]
      cases m - ys.length with
      | zero => simp; omega
      | succ l => simp [depth_closes hc]; omega

theorem depth_drop (h : B.Nested xs) (n : Nat) : B.depth (xs.drop n) ≤ 0 := by
  have h₁ := h.depth_take n
  have h₂ := h.depth_eq
  rw [← List.take_append_drop n xs, depth_append] at h₂
  omega

theorem depth_left (h : B.Nested (xs ++ ys)) : 0 ≤ B.depth xs := by
  simpa using h.depth_take xs.length

theorem depth_right (h : B.Nested (xs ++ ys)) : B.depth ys ≤ 0 := by
  simpa using h.depth_drop xs.length

end Nested

/-! ## Places -/

theorem between_eq :
    between (xs ++ a :: (ys ++ b :: zs)) xs.length (xs.length + 1 + ys.length) = ys := by
  simp [between, List.take_append, List.drop_append, Nat.add_assoc, Nat.add_comm 1]

theorem between_append (hk : k ≤ xs.length) : between (xs ++ ys) j k = between xs j k := by
  rw [between, between, List.take_append_of_le_length hk]

theorem between_prepend :
    between (xs ++ ys) (xs.length + j) (xs.length + k) = between ys j k := by
  rw [between, between, List.take_length_add_append, Nat.add_assoc, List.drop_length_add_append]

theorem pairs_iff :
    B.Pairs xs j k ↔ ∃ before a ys b behind, xs = before ++ a :: (ys ++ b :: behind) ∧
      before.length = j ∧ k = j + 1 + ys.length ∧ B.opens a ∧ B.closes b ∧ B.Nested ys := by
  constructor
  · rintro ⟨a, b, hj, hk, ha, hb, hjk, hn⟩
    obtain ⟨hj', rfl⟩ := List.getElem?_eq_some_iff.1 hj
    obtain ⟨hk', rfl⟩ := List.getElem?_eq_some_iff.1 hk
    refine ⟨xs.take j, xs[j], between xs j k, xs[k], xs.drop (k + 1), ?_, ?_, ?_, ha, hb, hn⟩
    · have h₁ : xs = xs.take k ++ xs[k] :: xs.drop (k + 1) := by simp
      have h₂ : xs.take k = xs.take j ++ xs[j] :: between xs j k := by
        have hlt : j < (xs.take k).length := by simp; omega
        have h := List.take_append_drop j (xs.take k)
        rw [List.drop_eq_getElem_cons hlt, List.take_take, Nat.min_eq_left (by omega)] at h
        simpa [between] using h.symm
      rw [h₂] at h₁
      simpa using h₁
    · simp; omega
    · simp [between]; omega
  · rintro ⟨before, a, ys, b, behind, rfl, rfl, rfl, ha, hb, hn⟩
    refine ⟨a, b, by simp, ?_, ha, hb, by omega, by rwa [between_eq]⟩
    rw [List.getElem?_append_right (by omega)]
    simp [Nat.add_assoc, Nat.add_comm 1]

namespace Pairs

theorem lt_length (h : B.Pairs xs j k) : k < xs.length := by
  obtain ⟨_, _, -, hk, -⟩ := h
  exact (List.getElem?_eq_some_iff.1 hk).1

theorem lt (h : B.Pairs xs j k) : j < k := by
  obtain ⟨_, _, -, -, -, -, hlt, -⟩ := h
  exact hlt

theorem left_ne {i : Nat} (h : B.Pairs xs j k) (hi : xs[i]? = some a) (ho : B.opens a = false) :
    j ≠ i := by
  rintro rfl
  obtain ⟨x, _, hj, -, hx, -⟩ := h
  obtain rfl : a = x := Option.some_inj.1 (hi.symm.trans hj)
  simp [ho] at hx

theorem right_ne {i : Nat} (h : B.Pairs xs j k) (hi : xs[i]? = some a)
    (hc : B.closes a = false) : k ≠ i := by
  rintro rfl
  obtain ⟨_, x, -, hk, -, hx, -⟩ := h
  obtain rfl : a = x := Option.some_inj.1 (hi.symm.trans hk)
  simp [hc] at hx

theorem append (h : B.Pairs xs j k) (ys : List α) : B.Pairs (xs ++ ys) j k := by
  obtain ⟨before, a, zs, b, behind, rfl, hj, hk, h⟩ := pairs_iff.1 h
  exact pairs_iff.2 ⟨before, a, zs, b, behind ++ ys, by simp, hj, hk, h⟩

theorem prepend (h : B.Pairs xs j k) (ys : List α) :
    B.Pairs (ys ++ xs) (ys.length + j) (ys.length + k) := by
  obtain ⟨before, a, zs, b, behind, rfl, hj, hk, h⟩ := pairs_iff.1 h
  exact pairs_iff.2 ⟨ys ++ before, a, zs, b, behind, by simp, by simp [hj], by omega, h⟩

theorem inside (h : B.Pairs ys j k) (xs : List α) (a : α) (zs : List α) :
    B.Pairs (xs ++ a :: (ys ++ zs)) (xs.length + 1 + j) (xs.length + 1 + k) := by
  have h := (h.append zs).prepend (xs ++ [a])
  simpa using h

theorem of_append (h : B.Pairs (xs ++ ys) j k) (hk : k < xs.length) : B.Pairs xs j k := by
  obtain ⟨a, b, ha, hb, ho, hc, hjk, hn⟩ := h
  rw [List.getElem?_append_left (by omega)] at ha hb
  refine ⟨a, b, ha, hb, ho, hc, hjk, ?_⟩
  rwa [between, List.take_append_of_le_length (by omega)] at hn

theorem not_lt_left {j' : Nat} (h : B.Pairs xs j k) (h' : B.Pairs xs j' k) : ¬ j < j' := by
  intro hlt
  obtain ⟨_, _, -, -, -, -, -, hn⟩ := h
  obtain ⟨a, _, hj, hk, ha, -, hjk, hn'⟩ := h'
  -- what stands between `j` and `k` ends with an open bracket at `j'`
  have hdrop : (between xs j k).drop (j' - (j + 1)) = a :: between xs j' k := by
    have hget : (xs.take k)[j']? = some a := by rw [List.getElem?_take, if_pos hjk, hj]
    obtain ⟨hlen, rfl⟩ := List.getElem?_eq_some_iff.1 hget
    rw [between, List.drop_drop, show j + 1 + (j' - (j + 1)) = j' by omega,
      List.drop_eq_getElem_cons hlen, between]
  have hdepth := hn.depth_drop (j' - (j + 1))
  rw [hdrop, depth_cons, depth_opens ha, hn'.depth_eq] at hdepth
  omega

/-- A closing bracket has one partner. -/
theorem left_unique {j' : Nat} (h : B.Pairs xs j k) (h' : B.Pairs xs j' k) : j = j' := by
  have h₁ := h.not_lt_left h'
  have h₂ := h'.not_lt_left h
  omega

theorem not_lt_right {k' : Nat} (h : B.Pairs xs j k) (h' : B.Pairs xs j k') : ¬ k < k' := by
  intro hlt
  obtain ⟨_, b, -, hk, -, hb, hjk, hn⟩ := h
  obtain ⟨_, _, -, -, -, -, -, hn'⟩ := h'
  -- what stands between `j` and `k'` closes a bracket too many at `k`
  have htake : (between xs j k').take (k - j) = between xs j k ++ [b] := by
    obtain ⟨hlen, rfl⟩ := List.getElem?_eq_some_iff.1 hk
    rw [between, List.take_drop, List.take_take, show min (j + 1 + (k - j)) k' = k + 1 by omega,
      List.take_succ_eq_append_getElem hlen, List.drop_append_of_le_length (by simp; omega),
      between]
  have hdepth := hn'.depth_take (k - j)
  rw [htake, depth_append, depth_closes hb, hn.depth_eq] at hdepth
  omega

/-- An opening bracket has one partner. -/
theorem right_unique {k' : Nat} (h : B.Pairs xs j k) (h' : B.Pairs xs j k') : k = k' := by
  have h₁ := h.not_lt_right h'
  have h₂ := h'.not_lt_right h
  omega

end Pairs

/-! ## Nested lists -/

namespace Nested

theorem pairs (ha : B.opens a) (h : B.Nested ys) (hb : B.closes b) :
    B.Pairs (xs ++ a :: (ys ++ b :: zs)) xs.length (xs.length + 1 + ys.length) :=
  pairs_iff.2 ⟨xs, a, ys, b, zs, rfl, rfl, rfl, ha, hb, h⟩

/-- In a nested list every bracket has a partner. -/
theorem exists_pair (h : B.Nested xs) {i : Nat} {x : α} (hi : xs[i]? = some x)
    (hx : B.opens x ∨ B.closes x) : ∃ j k, B.Pairs xs j k ∧ (i = j ∨ i = k) := by
  induction h generalizing i with
  | nil => simp at hi
  | @snoc xs a _ ho hc ih =>
    rcases Nat.lt_or_ge i xs.length with hlt | hge
    · rw [List.getElem?_append_left hlt] at hi
      obtain ⟨j, k, h, hjk⟩ := ih hi
      exact ⟨j, k, h.append _, hjk⟩
    · rw [List.getElem?_append_right hge] at hi
      obtain ⟨-, rfl⟩ : i - xs.length = 0 ∧ a = x := by
        simpa [List.getElem?_singleton] using hi
      simp [ho, hc] at hx
  | @wrap xs ys a b _ hys ha hb ih₁ ih₂ =>
    have hpair : B.Pairs (xs ++ a :: (ys ++ [b])) xs.length (xs.length + 1 + ys.length) :=
      pairs ha hys hb
    rcases Nat.lt_or_ge i xs.length with hlt | hge
    · rw [List.getElem?_append_left hlt] at hi
      obtain ⟨j, k, h, hjk⟩ := ih₁ hi
      exact ⟨j, k, h.append _, hjk⟩
    obtain ⟨n, rfl⟩ := Nat.exists_eq_add_of_le hge
    rw [List.getElem?_append_right (by omega), Nat.add_sub_cancel_left] at hi
    cases n with
    | zero => exact ⟨_, _, hpair, .inl rfl⟩
    | succ n =>
      rw [List.getElem?_cons_succ] at hi
      rcases Nat.lt_or_ge n ys.length with hlt | hge
      · rw [List.getElem?_append_left hlt] at hi
        obtain ⟨j, k, h, hjk⟩ := ih₂ hi
        exact ⟨_, _, h.inside xs a [b], by omega⟩
      · rw [List.getElem?_append_right hge] at hi
        obtain ⟨hn, -⟩ : n - ys.length = 0 ∧ b = x := by
          simpa [List.getElem?_singleton] using hi
        exact ⟨_, _, hpair, .inr (by omega)⟩

theorem exists_close (h : B.Nested xs) (hj : xs[j]? = some a) (ha : B.opens a) :
    ∃ k, B.Pairs xs j k := by
  obtain ⟨i, k, hp, rfl | rfl⟩ := h.exists_pair hj (.inl ha)
  · exact ⟨k, hp⟩
  · obtain ⟨_, b, -, hk, -, hb, -⟩ := hp
    obtain rfl : a = b := Option.some_inj.1 (hj.symm.trans hk)
    simp [B.closes_of_opens a ha] at hb

theorem exists_open (h : B.Nested xs) (hk : xs[k]? = some b) (hb : B.closes b) :
    ∃ j, B.Pairs xs j k := by
  obtain ⟨j, i, hp, rfl | rfl⟩ := h.exists_pair hk (.inr hb)
  · obtain ⟨a, _, hj, -, ha, -⟩ := hp
    obtain rfl : b = a := Option.some_inj.1 (hk.symm.trans hj)
    simp [B.closes_of_opens b ha] at hb
  · exact ⟨j, hp⟩

/-- Nothing before a closing bracket is left for it to close. -/
theorem not_pairs_left (h : B.Nested xs) : ¬ B.Pairs (xs ++ b :: zs) j xs.length := by
  intro hp
  obtain ⟨before, a, ys, b', behind, heq, rfl, hlen, ha, -, hn⟩ := pairs_iff.1 hp
  have hsplit : xs ++ b :: zs = (before ++ a :: ys) ++ b' :: behind := by simpa using heq
  have hxs : xs = before ++ a :: ys := List.append_inj_left hsplit (by simp; omega)
  have hdepth := (hxs ▸ h).depth_right
  rw [depth_cons, depth_opens ha, hn.depth_eq] at hdepth
  omega

/-- Nothing behind an opening bracket is left to close it. -/
theorem not_pairs_right (h : B.Nested ys) : ¬ B.Pairs (xs ++ a :: ys) xs.length k := by
  intro hp
  obtain ⟨before, a', zs, b, behind, heq, hlen, -, -, hb, hn⟩ := pairs_iff.1 hp
  obtain ⟨-, htail⟩ := List.append_inj heq hlen.symm
  obtain ⟨-, hys⟩ := List.cons.inj htail
  have hys' : ys = (zs ++ [b]) ++ behind := by simp [hys]
  have hdepth := (hys' ▸ h).depth_left
  rw [depth_append, hn.depth_eq, depth_closes hb] at hdepth
  omega

/-- Behind a nested list, brackets pair as they do without it. -/
theorem pairs_behind (hx : B.Nested xs) (h : B.Pairs (xs ++ ys) j (xs.length + k)) :
    ∃ j', j = xs.length + j' ∧ B.Pairs ys j' k := by
  obtain ⟨a, b, ha, hb, ho, hc, hjk, hn⟩ := id h
  rcases Nat.lt_or_ge j xs.length with hlt | hge
  · -- a bracket of the nested list has its partner there
    rw [List.getElem?_append_left hlt] at ha
    obtain ⟨l, hl⟩ := hx.exists_close ha ho
    have hsame := (hl.append ys).right_unique h
    have hlen := hl.lt_length
    omega
  · obtain ⟨j', rfl⟩ := Nat.exists_eq_add_of_le hge
    rw [List.getElem?_append_right (by omega), Nat.add_sub_cancel_left] at ha hb
    rw [between_prepend] at hn
    exact ⟨j', rfl, a, b, ha, hb, ho, hc, by omega, hn⟩

end Nested

/-- The pairs of a list with a bracketed part behind it. -/
theorem Pairs.wrap_cases (h : B.Pairs (xs ++ a :: (ys ++ [b])) j k) (ha : B.opens a)
    (hy : B.Nested ys) (hb : B.closes b) :
    B.Pairs xs j k ∨ (j = xs.length ∧ k = xs.length + 1 + ys.length) ∨
      ∃ j' k', B.Pairs ys j' k' ∧ j = xs.length + 1 + j' ∧ k = xs.length + 1 + k' := by
  have hpair : B.Pairs (xs ++ a :: (ys ++ [b])) xs.length (xs.length + 1 + ys.length) :=
    Nested.pairs ha hy hb
  have hlen := h.lt_length
  rcases Nat.lt_or_ge k xs.length with hlt | hge
  · exact .inl (h.of_append hlt)
  refine .inr ?_
  obtain ⟨_, c, -, hk, -, hc, -⟩ := id h
  obtain ⟨n, rfl⟩ := Nat.exists_eq_add_of_le hge
  rw [List.getElem?_append_right (by omega), Nat.add_sub_cancel_left] at hk
  cases n with
  | zero =>
    obtain rfl : a = c := by simpa using hk
    simp [B.closes_of_opens a ha] at hc
  | succ n =>
    rw [List.getElem?_cons_succ] at hk
    rcases Nat.lt_or_ge n ys.length with hlt | hge
    · rw [List.getElem?_append_left hlt] at hk
      obtain ⟨j', hj'⟩ := hy.exists_open hk hc
      have hin := hj'.inside xs a [b]
      rw [show xs.length + 1 + n = xs.length + (n + 1) by omega] at hin
      exact .inr ⟨j', n, hj', h.left_unique hin, by omega⟩
    · simp only [List.length_append, List.length_cons, List.length_nil] at hlen
      obtain rfl : n = ys.length := by omega
      rw [show xs.length + 1 + ys.length = xs.length + (ys.length + 1) by omega] at hpair ⊢
      exact .inl ⟨h.left_unique hpair, rfl⟩

end Brackets

end TapeLang
