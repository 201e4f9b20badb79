import TapeLang.CommandLine.Flag
import TapeLang.Text.Quoted

/-!
# Usage

The texts of the command line itself: usage, help, and what is said about arguments that cannot be
understood.
-/

set_option autoImplicit false

namespace TapeLang.CommandLine

/-- How the program is called. -/
def usage : String :=
  "usage: bfvm [-h] [-O \x7b0,1\x7d] [--dump] [--strict] [--max-steps MAX_STEPS]\n" ++
  "            [--chunk-size CHUNK_SIZE] [--engine \x7bpython,jit\x7d] [-v]\n" ++
  "            [file]\n"

/-- What its arguments mean. -/
def help : String := usage ++ "\n" ++
  "Compile and run a tape language program. Program input is read from stdin.\n" ++
  "\n" ++
  "positional arguments:\n" ++
  "  file                  program file (default: read the program from stdin)\n" ++
  "\n" ++
  "options:\n" ++
  "  -h, --help            show this help message and exit\n" ++
  "  -O \x7b0,1\x7d              0 = fold only, 1 = also fuse clear/move loops\n" ++
  "                        (default)\n" ++
  "  --dump                print the compiled instructions instead of running\n" ++
  "  --strict              treat cell overflow/underflow as an error\n" ++
  "  --max-steps MAX_STEPS\n" ++
  "                        abort after this many instructions\n" ++
  "  --chunk-size CHUNK_SIZE\n" ++
  "                        tape growth granularity\n" ++
  "  --engine \x7bpython,jit\x7d\n" ++
  "                        execution engine\n" ++
  "  -v, --verbose         debug logging\n"

/-- Why arguments cannot be understood. -/
inductive UsageError where
  /-- The start of several spellings. -/
  | ambiguous (argument : String) (spellings : List String)
  /-- A value for a flag that takes none. -/
  | strayValue (flag : Flag) (value : String)
  | missingValue (flag : Flag)
  | notAnInteger (flag : Flag) (value : String)
  /-- A value, as it is shown, that is none of the choices. -/
  | notAChoice (flag : Flag) (shown : String) (choices : List String)
  /-- Arguments that nothing asks for. -/
  | unrecognized (arguments : List String)
deriving DecidableEq, Repr

namespace UsageError

/-- A message about one flag. -/
def about (flag : Flag) (text : String) : String := "argument " ++ flag.title ++ ": " ++ text

/-- The text of an error. -/
def message : UsageError → String
  | ambiguous argument spellings =>
    "ambiguous option: " ++ argument ++ " could match " ++ ", ".intercalate spellings
  | strayValue flag value => about flag ("ignored explicit argument " ++ quoted value)
  | missingValue flag => about flag "expected one argument"
  | notAnInteger flag value => about flag ("invalid int value: " ++ quoted value)
  | notAChoice flag shown choices =>
    about flag
      ("invalid choice: " ++ shown ++ " (choose from " ++ ", ".intercalate choices ++ ")")
  | unrecognized arguments => "unrecognized arguments: " ++ " ".intercalate arguments

/-- What is written about an error. -/
def report (e : UsageError) : String := usage ++ "bfvm: error: " ++ e.message ++ "\n"

end UsageError

end TapeLang.CommandLine
