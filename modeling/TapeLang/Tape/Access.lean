import TapeLang.RunError
import TapeLang.Tape

/-!
# Access to a tape

What can be asked of a tape, and how it answers. An index that the tape does not have is an error,
and so is growth that there is no room for; both leave the tape as it is.
-/

set_option autoImplicit false

namespace TapeLang.Tape

/-- What can be asked of a tape. -/
inductive Access where
  /-- The value of a cell. -/
  | get (index : Int)
  /-- A cell is to hold what an integer leaves in a byte. -/
  | set (index value : Int)
  /-- The tape is to have an index. -/
  | ensure (index : Int)
  | reset
deriving DecidableEq, Repr

/-- The answer to an access, with a value if it asks for one, and the tape after it. -/
def perform (t : Tape) (memory : Memory) : Access → Except RunError (Option UInt8) × Tape
  | .get index =>
    match t.get? index with
    | some value => (.ok (some value), t)
    | none => (.error (.missing index t.size), t)
  | .set index value =>
    match t.get? index with
    | some _ => (.ok none, t.set index (byteOf value))
    | none => (.error (.missing index t.size), t)
  | .ensure index =>
    match t.ensure memory index with
    | .ok t => (.ok none, t)
    | .error error => (.error (.noRoom error), t)
  | .reset => (.ok none, t.reset)

/-- The tape after one access after the other. -/
def performAll (t : Tape) (memory : Memory) (accesses : List Access) : Tape :=
  accesses.foldl (fun t access => (t.perform memory access).2) t

end TapeLang.Tape
