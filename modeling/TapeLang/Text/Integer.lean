import TapeLang.Text.Decimal

/-!
# Reading and writing integers

An integer may have blanks around it, a sign, and single underscores between its digits; the digits
may be of any script. More than 4300 digits are neither read nor written.
-/

set_option autoImplicit false

namespace TapeLang.Integer

/-- The most digits that a number may have. -/
def maxDigits : Nat := 4300

/-- The text in ASCII: blanks become spaces and digits of other scripts their ASCII digits. `none`
if another character is left. A text that is all ASCII stays as it is, with the separators of ASCII,
which `trim` does not take for blanks. -/
def ascii? (text : List Char) : Option (List Char) :=
  if text.all (·.toNat < 0x80) then some text
  else text.mapM fun c =>
    if c.toNat < 0x7f then some c
    else if isBlank c then some ' '
    else (decimalValue? c).map fun digit => Char.ofNat ('0'.toNat + digit)

/-- A space or one of the five controls from tabulator to carriage return. -/
def isSpace (c : Char) : Bool := c == ' ' || (9 ≤ c.toNat && c.toNat ≤ 13)

/-- The text without spaces at either end. -/
def trim (text : List Char) : List Char :=
  ((text.dropWhile isSpace).reverse.dropWhile isSpace).reverse

/-- Reads on after a digit, with the value and the number of the digits so far. An underscore must
have a digit behind it. -/
def digitsAfter (value count : Nat) : List Char → Option Nat
  | [] => if count ≤ maxDigits then some value else none
  | '_' :: c :: rest =>
    if c.isDigit then digitsAfter (10 * value + (c.toNat - '0'.toNat)) (count + 1) rest else none
  | c :: rest =>
    if c.isDigit then digitsAfter (10 * value + (c.toNat - '0'.toNat)) (count + 1) rest else none

/-- Reads a number without sign. -/
def natural? : List Char → Option Nat
  | c :: rest => if c.isDigit then digitsAfter (c.toNat - '0'.toNat) 1 rest else none
  | [] => none

/-- Reads an integer. -/
def read? (text : List Char) : Option Int :=
  match (ascii? text).map trim with
  | some ('-' :: digits) => (natural? digits).map fun n => -(n : Int)
  | some ('+' :: digits) => (natural? digits).map fun n => (n : Int)
  | some digits => (natural? digits).map fun n => (n : Int)
  | none => none

/-- An integer that has not too many digits to be written. -/
def isWritable (n : Int) : Bool := (toString n.natAbs).length ≤ maxDigits

/-- What is said of an integer with too many digits. -/
def notWritten : String :=
  "Exceeds the limit (" ++ toString maxDigits ++ " digits) for integer string conversion; "
    ++ "use sys.set_int_max_str_digits() to increase the limit"

end TapeLang.Integer
