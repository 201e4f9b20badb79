import Mathlib.Algebra.Order.Ring.Int
import TapeLang.Text.Integer

/-!
# Written numbers

What the text of a number consists of (`mem_toString`), and which numbers have too many digits to be
written (`isWritable_iff`).
-/

set_option autoImplicit false

namespace TapeLang.Integer

/-! ## Characters -/

theorem mem_toString {n : Int} {c : Char} (h : c ∈ (toString n).toList) :
    c = '-' ∨ c.isDigit := by
  have hdigit {n : Nat} (hc : c ∈ n.repr.toList) : c.isDigit := by
    rw [Nat.toList_repr] at hc
    exact Nat.isDigit_of_mem_toDigits (by omega) (by omega) hc
  cases n with
  | ofNat n => exact .inr (hdigit h)
  | negSucc n =>
    rw [show toString (Int.negSucc n) = "-" ++ (n + 1).repr from rfl, String.toList_append] at h
    rcases List.mem_append.1 h with h | h
    · exact .inl (by simpa using h)
    · exact .inr (hdigit h)

theorem newline_not_mem_toString (n : Int) : '\n' ∉ (toString n).toList := by
  intro h
  have hcase := mem_toString h
  revert hcase
  decide

/-! ## Digits -/

theorem isWritable_iff (n : Int) : isWritable n ↔ n.natAbs < 10 ^ maxDigits := by
  rw [isWritable, decide_eq_true_iff, Nat.toString_eq_ofList_toDigits, String.length_ofList]
  exact Nat.length_toDigits_le_iff (by decide) (by decide)

theorem isWritable_neg (n : Int) : isWritable (-n) = isWritable n := by
  rw [isWritable, Int.natAbs_neg, isWritable]

/-- The first number with too many digits. -/
def tooLong : Int := 10 ^ maxDigits

theorem le_tooLong : 1000 ≤ tooLong :=
  calc
    (1000 : Int) = 10 ^ 3 := by decide
    _ ≤ 10 ^ maxDigits := pow_le_pow_right₀ (by decide) (by decide)

theorem isWritable_tooLong : isWritable tooLong = false := by
  have habs : (10 : Int).natAbs = 10 := rfl
  rw [← Bool.not_eq_true, isWritable_iff, tooLong, Int.natAbs_pow, habs]
  exact Nat.lt_irrefl _

end TapeLang.Integer
