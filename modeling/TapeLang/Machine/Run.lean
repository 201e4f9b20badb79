import TapeLang.Machine.Batch
import TapeLang.Machine.Stepwise

/-!
# Runs

A run of a machine starts at the first instruction of its program and keeps the tape, the pointer
and the step counter that earlier runs have left.
-/

set_option autoImplicit false

namespace TapeLang

/-- More steps than any run takes: two to the power of 62. -/
def endless : Nat := 0x4000000000000000

namespace Machine

/-- A run of at most `fuel` steps. The batch engine refuses arguments that are no machine words
before it executes anything. -/
def runFor (fuel : Nat) (m : Machine) : Report :=
  match m.options.engine with
  | .stepwise => Stepwise.runFrom m.program m.options fuel 0 m.state #[]
  | .batch =>
    match Batch.encode? m.program.toList with
    | none => ⟨.failed .numberTooLarge, m.state, #[]⟩
    | some code => Batch.runFrom code m.options fuel 0 m.state #[]

/-- A run to its end. -/
def run (m : Machine) : Report := m.runFor endless

end Machine

end TapeLang
