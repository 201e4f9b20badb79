import TapeLang.CommandLine.Reply

/-!
# The program

Connects the reply to a call with the files and streams of the system. The input is read whole
before the run, and only if the program can read any.
-/

set_option autoImplicit false

namespace TapeLang.CommandLine

/-- The memory that a call may count on: a quarter of a tebibyte. -/
def systemMemory : Memory := ⟨some 0x4000000000⟩

/-- The content of a file of the system. -/
def readFile (name : String) : IO (Except FileError (List UInt8)) := do
  try
    return .ok (← IO.FS.readBinFile name).data.toList
  catch
    | .noFileOrDirectory .. => return .error .notFound
    | .inappropriateType .. => return .error .isADirectory
    | error => return .error (.other (toString error))

/-- All input of the system, or the failure to read it. -/
def readInput : IO Input := do
  try
    return { pending := (← (← IO.getStdin).readBinToEnd).data.toList }
  catch _ => return { readsLeft := some 0 }

/-- The surroundings of a call: the file that it names and the input that it may read. -/
def surroundings (arguments : List String) : IO Surroundings := do
  match Request.ofArguments arguments with
  | .error _ => return { file := fun _ => .error .notFound, memory := systemMemory }
  | .ok request =>
    match request.file with
    | none =>
      return { file := fun _ => .error .notFound, input := ← readInput, memory := systemMemory }
    | some name =>
      let content ← readFile (normalName name)
      let input ← match content with
        | .ok bytes =>
          if request.settings.dump ∨ ',' ∉ textOfBytes bytes then pure {} else readInput
        | .error _ => pure {}
      return { file := fun _ => content, input, memory := systemMemory }

/-- The exit status of the process. -/
def Exit.status : Exit → Nat
  | .returned status | .stopped status => status
  | .broken _ | .unfinished => 1

/-- Writes the output and the log of a reply, and gives the status. -/
def deliver (r : Reply) : IO UInt32 := do
  try
    let stdout ← IO.getStdout
    stdout.write ⟨r.output.written⟩
    stdout.flush
  catch error =>
    IO.eprint (r.log ++ (Entry.line ⟨.error, "I/O error: " ++ toString error⟩))
    return 1
  IO.eprint r.log
  return r.exit.status.toUInt32

end TapeLang.CommandLine

/-- Replies to a call with the arguments of the command line. -/
def main (arguments : List String) : IO UInt32 := do
  let around ← TapeLang.CommandLine.surroundings arguments
  TapeLang.CommandLine.deliver (TapeLang.CommandLine.reply arguments around)
