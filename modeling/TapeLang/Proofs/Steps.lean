/-!
# Steps

What a partial function comes to when it is applied again and again. Platforms, the stepwise engine
and the moves of any engine all go on in this way, and what holds of every such walk is said here
once: walks can be joined (`after_trans`), what has come so far has come by everything before
(`isSome_after_of_le`), and what each step keeps stays (`keeps`).
-/

set_option autoImplicit false

namespace TapeLang.Walk

/-- What is come to after a number of steps, if there is a next one each time. -/
def after {κ : Type} (next? : κ → Option κ) : Nat → κ → Option κ
  | 0, c => some c
  | n + 1, c => (next? c).bind (after next? n)

variable {κ : Type} {next? : κ → Option κ} {c d : κ} {m n : Nat}

theorem after_add : after next? (m + n) c = (after next? m c).bind (after next? n) := by
  induction m generalizing c with
  | zero => rw [Nat.zero_add, after, Option.bind_some]
  | succ m ih =>
    rw [Nat.succ_add, after, after]
    cases next? c with
    | none => rfl
    | some d => exact ih

theorem after_trans (h : after next? m c = some d) :
    after next? (m + n) c = after next? n d := by
  rw [after_add, h, Option.bind_some]

theorem after_succ (h : next? c = some d) : after next? (n + 1) c = after next? n d := by
  rw [after, h, Option.bind_some]

theorem after_succ_of_none (h : next? c = none) : after next? (n + 1) c = none := by
  rw [after, h, Option.bind_none]

/-- The last step of a walk. -/
theorem after_succ_last (h : after next? n c = some d) : after next? (n + 1) c = next? d := by
  rw [after_trans h, after]
  cases next? d <;> rfl

/-- A walk that has taken a step has taken a first one. -/
theorem exists_first (h : after next? (n + 1) c = some d) :
    ∃ e, next? c = some e ∧ after next? n e = some d :=
  Option.bind_eq_some_iff.1 h

/-- A walk that has come so far has come by everything before. -/
theorem isSome_after_of_le (h : (after next? n c).isSome) (hm : m ≤ n) :
    (after next? m c).isSome := by
  obtain ⟨k, rfl⟩ := Nat.le.dest hm
  cases hc : after next? m c with
  | some d => rfl
  | none =>
    rw [after_add, hc] at h
    cases h

theorem exists_after_of_le (h : after next? n c = some d) (hm : m ≤ n) :
    ∃ e, after next? m c = some e :=
  Option.isSome_iff_exists.1 (isSome_after_of_le (by rw [h]; rfl) hm)

/-- What every step keeps, a walk keeps. -/
theorem keeps {p : κ → Prop} (hstep : ∀ {c d}, p c → next? c = some d → p d) (hc : p c)
    (h : after next? n c = some d) : p d := by
  induction n generalizing c with
  | zero =>
    cases h
    exact hc
  | succ n ih =>
    obtain ⟨e, hnext, hrest⟩ := exists_first h
    exact ih (hstep hc hnext) hrest

/-- A walk of one kind is one of another, seen through a map, if its steps are. -/
theorem after_map {ι : Type} {next'? : ι → Option ι} {f : κ → ι} {p : κ → Prop}
    (hstep : ∀ {c d}, p c → next? c = some d → p d ∧ next'? (f c) = some (f d)) (hc : p c)
    (h : after next? n c = some d) : after next'? n (f c) = some (f d) := by
  induction n generalizing c with
  | zero =>
    cases h
    rfl
  | succ n ih =>
    obtain ⟨e, hnext, hrest⟩ := exists_first h
    obtain ⟨he, hnext'⟩ := hstep hc hnext
    rw [after_succ hnext']
    exact ih he hrest

end TapeLang.Walk
