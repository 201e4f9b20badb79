/-!
# Flags

The options of the command line: their spellings, which of them take a value, and which choices that
value has.
-/

set_option autoImplicit false

namespace TapeLang.CommandLine

/-- An option of the command line. -/
inductive Flag where
  | help
  | level
  | dump
  | strict
  | maxSteps
  | chunkSize
  | engine
  | verbose
deriving DecidableEq, Repr

namespace Flag

/-- All flags, in the order in which they are listed. -/
def all : List Flag := [help, level, dump, strict, maxSteps, chunkSize, engine, verbose]

/-- How a flag is written. -/
def spellings : Flag → List String
  | help => ["-h", "--help"]
  | level => ["-O"]
  | dump => ["--dump"]
  | strict => ["--strict"]
  | maxSteps => ["--max-steps"]
  | chunkSize => ["--chunk-size"]
  | engine => ["--engine"]
  | verbose => ["-v", "--verbose"]

/-- The flag needs a value. -/
def takesValue : Flag → Bool
  | level | maxSteps | chunkSize | engine => true
  | help | dump | strict | verbose => false

/-- How messages name a flag. -/
def title (f : Flag) : String := "/".intercalate f.spellings

/-- Every spelling with its flag. -/
def table : List (String × Flag) := all.flatMap fun f => f.spellings.map fun s => (s, f)

/-- The flag of a spelling. -/
def ofSpelling? (spelling : String) : Option Flag :=
  (table.find? fun (s, _) => s == spelling).map (·.2)

end Flag

end TapeLang.CommandLine
