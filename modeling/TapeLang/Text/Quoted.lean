import TapeLang.Text.Hexadecimal
import TapeLang.Text.Printable

/-!
# Quoted text

Text inside a message stands in quotes, with everything escaped that would not be seen as it is.
-/

set_option autoImplicit false

namespace TapeLang.Quoted

/-- The mark around a text: single, unless the text has single marks and no double one. -/
def markFor (text : List Char) : Char :=
  if text.contains '\'' && !text.contains '"' then '"' else '\''

/-- How a character is written between marks. -/
def escape (mark c : Char) : List Char :=
  if c = mark ∨ c = '\\' then ['\\', c]
  else if c = '\n' then ['\\', 'n']
  else if c = '\r' then ['\\', 'r']
  else if c = '\t' then ['\\', 't']
  else if isPrintable c then [c]
  else if c.toNat < 0x100 then ['\\', 'x'] ++ hexOf 2 c.toNat
  else if c.toNat < 0x10000 then ['\\', 'u'] ++ hexOf 4 c.toNat
  else ['\\', 'U'] ++ hexOf 8 c.toNat

end TapeLang.Quoted

namespace TapeLang

/-- A text in quotes. -/
def quoted (text : String) : String :=
  let mark := Quoted.markFor text.toList
  String.ofList ([mark] ++ text.toList.flatMap (Quoted.escape mark) ++ [mark])

end TapeLang
