import TapeLang.CommandLine.Usage
import TapeLang.Text.Decimal

/-!
# Words

Tells options from operands before anything is done with either. A spelling may be cut short where
only one long spelling starts so, and a value may follow it behind an equals sign, or at once behind
a short spelling. Negative numbers and what has a blank in it are operands, unless an option is
spelled so.
-/

set_option autoImplicit false

namespace TapeLang.CommandLine

/-- An argument that has been classified. -/
inductive Word where
  | operand (text : String)
  /-- A flag as it is spelled in full, and the value written together with it. -/
  | option (flag : Flag) (spelling : String) (value : Option String)
  /-- What looks like an option and is none. -/
  | unknown (text : String)
  /-- The mark behind which all is operands. -/
  | separator
deriving DecidableEq, Repr

namespace Word

/-- A text cut at its first equals sign; without one there is no second part. -/
def cutAtEquals (text : List Char) : List Char × Option (List Char) :=
  match text.dropWhile (· != '=') with
  | [] => (text, none)
  | _ :: value => (text.takeWhile (· != '='), some value)

/-- Decimal digits of any script. -/
def areDigits (text : List Char) : Bool := text.all fun c => (decimalValue? c).isSome

/-- The text behind a minus sign that makes a number: digits, with a point among or before them. One
line end may follow. -/
def isNumber (text : List Char) : Bool :=
  let number := if text.getLast? = some '\n' then text.dropLast else text
  match number.dropWhile (· != '.') with
  | [] => !number.isEmpty && areDigits number
  | _ :: fraction =>
    areDigits (number.takeWhile (· != '.')) && !fraction.isEmpty && areDigits fraction

/-- The options that an argument may mean which is not spelled in full. Behind two dashes it is the
start of a spelling; behind one, a short spelling with something behind. -/
def candidates (argument : List Char) : List (Flag × String × Option String) :=
  match argument with
  | '-' :: '-' :: _ =>
    let (start, value) := cutAtEquals argument
    Flag.table.filterMap fun (spelling, flag) =>
      if start.isPrefixOf spelling.toList then some (flag, spelling, value.map String.ofList)
      else none
  | dash :: letter :: rest =>
    let short := String.ofList [dash, letter]
    match Flag.ofSpelling? short with
    | some flag => [(flag, short, some (String.ofList rest))]
    | none => []
  | _ => []

/-- Classifies an argument that starts with a dash and is not spelled like a flag. -/
def classifyInexact (argument : String) : Except UsageError Word :=
  match candidates argument.toList with
  | [(flag, spelling, value)] => .ok (.option flag spelling value)
  | [] =>
    if isNumber (argument.toList.drop 1) || argument.toList.contains ' ' then
      .ok (.operand argument)
    else .ok (.unknown argument)
  | several => .error (.ambiguous argument (several.map fun (_, spelling, _) => spelling))

/-- Classifies an argument before the separator. -/
def classify (argument : String) : Except UsageError Word :=
  match argument.toList with
  | '-' :: _ :: _ =>
    match Flag.ofSpelling? argument with
    | some flag => .ok (.option flag argument none)
    | none =>
      let (start, value) := cutAtEquals argument.toList
      match Flag.ofSpelling? (String.ofList start), value with
      | some flag, some value => .ok (.option flag (String.ofList start) (String.ofList value))
      | _, _ => classifyInexact argument
  | _ => .ok (.operand argument)

/-- Classifies all arguments. -/
def ofArguments : List String → Except UsageError (List Word)
  | [] => .ok []
  | argument :: rest =>
    if argument = "--" then .ok (.separator :: rest.map .operand)
    else do
      let word ← classify argument
      let words ← ofArguments rest
      return word :: words

end Word

end TapeLang.CommandLine
