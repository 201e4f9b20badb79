import TapeLang.Source.Excerpt
import TapeLang.Source.Hint

/-!
# Faults of a source text

What can be wrong with a source text, where, and how it is reported.
-/

set_option autoImplicit false

namespace TapeLang

/-- What is wrong. -/
inductive Fault where
  /-- A bracket without its partner. -/
  | unmatched (bracket : String)
  /-- A loop without brackets in it whose commands cancel out. -/
  | emptyLoop
deriving DecidableEq, Repr

/-- The message of a fault, without its place. -/
def Fault.message : Fault → String
  | .unmatched bracket => "unmatched '" ++ bracket ++ "'"
  | .emptyLoop => "empty loop"

/-- A fault and the position of the bracket to blame. -/
structure SourceError where
  fault : Fault
  position : Int
deriving DecidableEq, Repr

/-- An error as its reader sees it. -/
structure Diagnostic where
  message : String
  location : Location
  context : String
deriving DecidableEq, Repr

/-- The report of an error in a text: the fault, its place, the lines around it and a hint. -/
def SourceError.diagnose (e : SourceError) (text : List Char) : Diagnostic :=
  let l := Location.ofPosition text e.position
  let context := excerpt (linesOf text) l.line l.column 1
  let hint := match hintFor e.fault.message.toList with
    | some hint => "\nHint: " ++ hint
    | none => ""
  { message := "CompileError: " ++ e.fault.message
      ++ " (line " ++ toString l.line ++ ", column " ++ toString l.column ++ ")\n"
      ++ context ++ hint
    location := l
    context }

/-- The report, unless its caret stands too far to the right, or too far to the left. -/
def SourceError.report (e : SourceError) (text : List Char) (memory : Memory := .unlimited) :
    Except CapacityError Diagnostic :=
  let l := Location.ofPosition text e.position
  match Excerpt.capacityError? memory (linesOf text) l.column 1 with
  | some error => .error error
  | none => .ok (e.diagnose text)

end TapeLang
