import TapeLang.Evaluate
import TapeLang.Main
import TapeLang.Tape.Lemmas
import TapeLang.Proofs.Block
import TapeLang.Proofs.Meaning
import TapeLang.Proofs.Follows
import TapeLang.Proofs.Folding
import TapeLang.Proofs.Loops
import TapeLang.Proofs.Fusing
import TapeLang.Proofs.Lowering
import TapeLang.Proofs.Parsing
import TapeLang.Proofs.Compiling
import TapeLang.Proofs.Platform
import TapeLang.Proofs.Engine
import TapeLang.Proofs.Ends
import TapeLang.Proofs.Reaching
import TapeLang.Proofs.Reports
import TapeLang.Proofs.Reference
import TapeLang.Proofs.Interpreting
import TapeLang.Proofs.Conformance
import TapeLang.Proofs.Levels
import TapeLang.Proofs.Brackets
import TapeLang.Proofs.NormalForm
import TapeLang.Proofs.Simplifying
import TapeLang.Proofs.StraightLine
import TapeLang.Proofs.WellFormed
import TapeLang.Proofs.Emitting
import TapeLang.Proofs.Rejecting
import TapeLang.Proofs.Locating
import TapeLang.Proofs.Addressing
import TapeLang.Proofs.Pointing
import TapeLang.Proofs.Safety
import TapeLang.Proofs.Leaving
import TapeLang.Proofs.Rounds
import TapeLang.Proofs.Agreeing
import TapeLang.Proofs.Walks
import TapeLang.Proofs.Turns
import TapeLang.Proofs.Machines
import TapeLang.Proofs.Sequencing
import TapeLang.Proofs.Lengths
import TapeLang.Proofs.Counting
import TapeLang.Proofs.Failing
import TapeLang.Proofs.Limits
import TapeLang.Proofs.Checking
import TapeLang.Proofs.Chunks
import TapeLang.Proofs.Concatenation
import TapeLang.Proofs.Recompiling
import TapeLang.Proofs.Streams
import TapeLang.Proofs.Reading
import TapeLang.Proofs.Truncating
import TapeLang.Proofs.Histories
import TapeLang.Proofs.Recalling
import TapeLang.Proofs.Growing
import TapeLang.Proofs.Reporting
import TapeLang.Proofs.Enclosing
import TapeLang.Proofs.Showing
import TapeLang.Proofs.Moving
import TapeLang.Proofs.Resuming
