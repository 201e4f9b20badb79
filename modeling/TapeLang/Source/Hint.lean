/-!
# Hints

Advice that follows the message of a fault, chosen by the words of the message.
-/

set_option autoImplicit false

namespace TapeLang

/-- The words stand somewhere in the text. -/
def occursIn (words : List Char) : List Char → Bool
  | [] => words.isEmpty
  | c :: rest => words.isPrefixOf (c :: rest) || occursIn words rest

/-- The advice for a message, whose letters may have either case. Only letters of ASCII have to be
lowered: no other character becomes one of those in the words looked for. -/
def hintFor (message : List Char) : Option String :=
  let lower := message.map Char.toLower
  if occursIn "unmatched '['".toList lower then
    some "Every '[' needs a closing ']' later in the program."
  else if occursIn "unmatched ']'".toList lower then
    some "This ']' closes nothing. Remove it or add the missing '['."
  else if occursIn "empty loop".toList lower then
    some "A loop whose body cancels out never terminates once entered. Use [-] to clear a cell."
  else none

end TapeLang
