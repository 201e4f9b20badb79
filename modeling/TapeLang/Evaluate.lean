import TapeLang.Compile
import TapeLang.Machine.Run

/-!
# Evaluation

Compiles and runs a source text in one go, on input and output held in memory.
-/

set_option autoImplicit false

namespace TapeLang

/-- What comes of compiling and running a text. -/
inductive Evaluation where
  | rejected (error : SourceError)
  | refused (error : OptionsError)
  | ran (report : Report)

/-- Compiles a text and runs it on the given input. Faults of the text come before those of the
options. -/
def evaluate (level : Int) (options : Options) (text : List Char) (input : List UInt8)
    (memory : Memory := .unlimited) : Evaluation :=
  match compile level text with
  | .error rejection => .rejected rejection.error
  | .ok compilation =>
    match Machine.new compilation.program options { pending := input } {} memory with
    | .error refusal => .refused refusal
    | .ok m => .ran m.run

end TapeLang
