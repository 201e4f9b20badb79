/-!
# Byte streams

What a program reads from and writes to. Either stream can fail: a source of input may allow only so
many reads, and a sink for output may hold only so many bytes.
-/

set_option autoImplicit false

namespace TapeLang

/-- A source of input. -/
structure Input where
  /-- The bytes not read so far. -/
  pending : List UInt8 := []
  /-- How many bytes have been read. -/
  consumed : Nat := 0
  /-- How many more reads succeed; `none` if all do. -/
  readsLeft : Option Nat := none
deriving DecidableEq, Repr

namespace Input

/-- The input after one more call, `none` if that call fails. -/
def call? (input : Input) : Option Input :=
  match input.readsLeft with
  | none => some input
  | some 0 => none
  | some (n + 1) => some { input with readsLeft := some n }

/-- Reads one byte; at the end of the data there is none. `none` if the read fails. -/
def read? (input : Input) : Option (Option UInt8 × Input) :=
  match input.call? with
  | none => none
  | some input =>
    match input.pending with
    | [] => some (none, input)
    | b :: rest => some (some b, { input with pending := rest, consumed := input.consumed + 1 })

/-- Reads all that is left, in one call. `none` if it fails. -/
def readAll? (input : Input) : Option (List UInt8 × Input) :=
  match input.call? with
  | none => none
  | some input =>
    some (input.pending,
      { input with pending := [], consumed := input.consumed + input.pending.length })

/-- The input with more data behind. -/
def feed (input : Input) (bytes : List UInt8) : Input :=
  { input with pending := input.pending ++ bytes }

end Input

/-- A sink for output. -/
structure Output where
  /-- The bytes written so far. -/
  written : Array UInt8 := #[]
  /-- Writes fail once this many bytes are held; `none` if they never do. -/
  limit : Option Nat := none
deriving DecidableEq, Repr

namespace Output

/-- The sink takes no more bytes. -/
def isFull (output : Output) : Bool :=
  match output.limit with
  | none => false
  | some limit => limit ≤ output.written.size

/-- Writes all of some bytes at once. `none` if the write fails; nothing is stored then. -/
def write? (output : Output) (bytes : List UInt8) : Option Output :=
  if output.isFull then none
  else some { output with written := bytes.foldl Array.push output.written }

/-- Writes one byte `count` times, each time by a write of its own, until one fails. Says whether
all succeeded. -/
def putMany (byte : UInt8) : Nat → Output → Output × Bool
  | 0, output => (output, true)
  | count + 1, output =>
    if output.isFull then (output, false)
    else putMany byte count { output with written := output.written.push byte }

end Output

end TapeLang
