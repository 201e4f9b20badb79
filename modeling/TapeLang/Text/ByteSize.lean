/-!
# Sizes in bytes

A number of bytes as readers see it: in the largest binary unit that goes into it, with three
significant digits, or with all digits before the point where there are four.
-/

set_option autoImplicit false

namespace TapeLang.ByteSize

/-- The units, each 1024 times the one before. -/
def units : List String := ["bytes", "KiB", "MiB", "GiB", "TiB", "PiB", "EiB", "ZiB", "YiB"]

/-- A quotient rounded to the nearest integer; a half goes to the even one. -/
def roundDiv (n d : Nat) : Nat :=
  let q := n / d
  let rest := n % d
  if 2 * rest < d ∨ (2 * rest = d ∧ q % 2 = 0) then q else q + 1

/-- The number with its first 53 bits only, rounded. -/
def leadingBits (n : Nat) : Nat :=
  let unit := 1 <<< (n.log2 - 52)
  roundDiv n unit * unit

/-- The quotient with a point in it: three significant digits, or all before the point. -/
def threeDigits (n d : Nat) : String :=
  let hundredths := roundDiv (100 * n) d
  let tenths := roundDiv (10 * n) d
  if hundredths < 1000 then
    toString (hundredths / 100) ++ "." ++ toString (hundredths / 10 % 10)
      ++ toString (hundredths % 10)
  else if tenths < 1000 then toString (tenths / 10) ++ "." ++ toString (tenths % 10)
  else toString (roundDiv n d) ++ "."

/-- The size in the unit of a given place; whole bytes have no point. -/
def inUnit (n place : Nat) : String :=
  (if place = 0 then toString n else threeDigits n (1 <<< (10 * place)))
    ++ " " ++ units.getD place "YiB"

/-- The text of a number of bytes. What rounds to 1024 of a unit is one of the next. -/
def text (n : Nat) : String :=
  let n := leadingBits n
  let place := n.log2 / 10
  inUnit n (if roundDiv n (1 <<< (10 * place)) = 1024 then place + 1 else place)

end TapeLang.ByteSize
