/-!
# Signed words

The integers that fit 64 bits, and what 64 bits keep of any other. `isWord_iff` gives the bounds.
-/

set_option autoImplicit false

namespace TapeLang

/-- Two to the power of 63, by which signed words are bounded. -/
def wordBound : Int := 0x8000000000000000

/-- The word that an integer leaves in 64 bits. -/
def wrap (n : Int) : Int := (Int64.ofInt n).toInt

/-- The integer is a word. -/
def isWord (n : Int) : Bool := wrap n == n

theorem wrap_eq_bmod (n : Int) : wrap n = n.bmod Int64.size := Int64.toInt_ofInt

theorem isWord_iff (n : Int) : isWord n ↔ -wordBound ≤ n ∧ n < wordBound := by
  have hsize : Int64.size = 0x10000000000000000 := rfl
  rw [isWord, beq_iff_eq, wrap_eq_bmod, hsize, wordBound, Int.bmod_def]
  omega

theorem isWord_wrap (n : Int) : isWord (wrap n) := by
  rw [isWord, beq_iff_eq, wrap_eq_bmod, wrap_eq_bmod, Int.bmod_bmod]

/-- Wrapping leaves words as they are. -/
theorem wrap_of_isWord {n : Int} (h : isWord n) : wrap n = n := beq_iff_eq.mp h

end TapeLang
