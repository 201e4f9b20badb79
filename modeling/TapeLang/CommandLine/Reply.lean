import TapeLang.CommandLine.FileName
import TapeLang.CommandLine.Request
import TapeLang.Compile
import TapeLang.Instruction.Listing
import TapeLang.Machine.Run

/-!
# Replies

What the program does when it is called: its log, its output and its exit status, as functions of
the arguments, the files and the streams.
-/

set_option autoImplicit false

namespace TapeLang.CommandLine

/-! ## The log -/

/-- How much a log entry matters. -/
inductive Severity where
  /-- Shown on request. -/
  | debug
  | error
deriving DecidableEq, Repr

/-- An entry of the log. -/
structure Entry where
  severity : Severity
  text : String
deriving DecidableEq, Repr

/-- The line of an entry. -/
def Entry.line (e : Entry) : String :=
  (match e.severity with
    | .debug => "[DEBUG] "
    | .error => "[ERROR] ") ++ e.text ++ "\n"

/-- The lines of a log; entries for debugging are left out unless it is verbose. -/
def logText (verbose : Bool) (entries : List Entry) : String :=
  String.join ((entries.filter fun e => verbose || e.severity != .debug).map Entry.line)

/-- The entry for what a compilation has found. -/
def compiledEntry (text : List Char) (c : Compilation) : Entry :=
  ⟨.debug, "compiled " ++ toString text.length ++ " source bytes into "
    ++ toString c.program.length ++ " instructions (" ++ toString c.count.loops ++ " loops, "
    ++ toString c.count.fused ++ " fused)"⟩

/-- The entry that compares commands with instructions. -/
def commandsEntry (text : List Char) (c : Compilation) : Entry :=
  ⟨.debug, toString (commandCount text) ++ " commands compiled to "
    ++ toString c.program.length ++ " instructions"⟩

/-- The entry for an event of a run. -/
def eventEntry : Event → Entry
  | .grown before after =>
    ⟨.debug, "tape grown from " ++ toString before ++ " to " ++ toString after ++ " cells"⟩
  | .yielded index =>
    ⟨.debug, "jit loop yielded for tape growth at instruction " ++ toString index⟩

/-- The entry for the end of a run that has completed. -/
def finishedEntry (s : State) : Entry :=
  ⟨.debug, "run finished after " ++ toString s.steps ++ " steps, pointer at "
    ++ toString s.pointer⟩

/-- The entry for the first cells of a tape. -/
def cellsEntry (t : Tape) : Entry :=
  ⟨.debug, "first cells: " ++ " ".intercalate
    ((t.snapshot 16).map fun b => String.ofList (hexOf 2 b.toNat))⟩

/-! ## The reply -/

/-- What nothing reports. -/
inductive Breach where
  /-- The file name has a NUL in it. -/
  | nulInName
  /-- The help or the listing could not be written. -/
  | textLost
  /-- A number of the listing has too many digits. -/
  | notWritten
  /-- The output of a run could not be flushed. -/
  | outputLost
  /-- The level is blank, and the text asks for it. -/
  | blankLevel
  /-- A blank number is to be compared. -/
  | blankNumber
  /-- There is no room for a tape of one chunk. -/
  | noRoom (error : RoomError)
  /-- A run has failed, and neither the language nor a stream is to blame. -/
  | run (raised : Raised)
deriving DecidableEq, Repr

/-- The text of a breach. -/
def Breach.message : Breach → String
  | nulInName => "embedded null byte"
  | textLost | outputLost => RunError.pipeClosed.message
  | notWritten => Integer.notWritten
  | blankLevel => "'>=' not supported between instances of 'list' and 'int'"
  | blankNumber => "'<' not supported between instances of 'list' and 'int'"
  | noRoom error => error.message
  | run raised => raised.message

/-- How the program ends. -/
inductive Exit where
  /-- It has done its work, or reported why not. -/
  | returned (status : Nat)
  /-- It ends while it reads its arguments. -/
  | stopped (status : Nat)
  /-- It breaks off. -/
  | broken (breach : Breach)
  /-- The run has used up its fuel. -/
  | unfinished
deriving DecidableEq, Repr

/-- All that a call leaves behind. -/
structure Reply where
  exit : Exit
  output : Output
  log : String
deriving DecidableEq, Repr

/-- What a call finds around it. -/
structure Surroundings where
  /-- The content of a file, by its normal name. -/
  file : String → Except FileError (List UInt8)
  input : Input := {}
  output : Output := {}
  memory : Memory := .unlimited
  /-- The batch engine can be had. -/
  hasBatch : Bool := true
  /-- What a run has written cannot be flushed. -/
  flushFails : Bool := false

/-- An exit with the output and the log entries before it. -/
structure Result where
  exit : Exit
  output : Output
  entries : List Entry

namespace Result

/-- A failure that is reported. -/
def failed (status : Nat) (text : String) (output : Output) : Result :=
  ⟨.returned status, output, [⟨.error, text⟩]⟩

/-- A failure that is not reported. -/
def broken (breach : Breach) (output : Output) : Result := ⟨.broken breach, output, []⟩

/-- The result with entries before its own. -/
def after (entries : List Entry) (r : Result) : Result :=
  { r with entries := entries ++ r.entries }

/-- The result if the output is flushed behind it. A flush that fails takes the place of the exit,
and `behind` is logged after one that succeeds. -/
def flushed (flushFails : Bool) (behind : List Entry) (r : Result) : Result :=
  if flushFails then { r with exit := .broken .outputLost }
  else { r with entries := r.entries ++ behind }

end Result

/-- Reports what a run has raised, if it is an error of the language or of a stream. -/
def reportFailure (raised : Raised) (output : Output) : Result :=
  match raised with
  | .error e =>
    match e with
    | .readFailed | .pipeClosed => .failed 1 ("I/O error: " ++ e.message) output
    | _ => if e.place?.isSome then .failed 1 e.message output else .broken (.run raised) output
  | .notWritten => .broken (.run raised) output

/-- Reports how a run has ended, and flushes its output. -/
def conclude (flushFails : Bool) (r : Report) : Result :=
  let events := r.events.toList.map eventEntry
  let output := r.state.output
  match r.ending with
  | .completed =>
    Result.flushed flushFails [cellsEntry r.state.tape]
      ⟨.returned 0, output, events ++ [finishedEntry r.state]⟩
  | .unfinished _ => ⟨.unfinished, output, events⟩
  | .failed e => ((reportFailure e.raised output).after events).flushed flushFails []

/-- What is said if the batch engine cannot be had. -/
def batchMissing : String :=
  "The jit engine needs numba (install bfvm[jit]): "
    ++ "import of bfvm.jit halted; None in sys.modules"

/-- Reports the refusal of options, if it is not for want of memory. -/
def reportRefusal (refusal : OptionsError) (output : Output) : Result :=
  match refusal with
  | .noRoom ⟨.outOfMemory, cells⟩ => .broken (.noRoom ⟨.outOfMemory, cells⟩) output
  | _ => .failed 2 refusal.message output

/-- Runs a compiled program. -/
def runProgram (settings : Settings) (around : Surroundings) (program : Program) (input : Input) :
    Result :=
  match settings.runOptions with
  | .error (.refused refusal) => reportRefusal refusal around.output
  | .error .blankNumber => .broken .blankNumber around.output
  | .ok options =>
    match Machine.new program options input around.output around.memory with
    | .error refusal => reportRefusal refusal around.output
    | .ok m =>
      if m.options.engine = .batch ∧ ¬ around.hasBatch then
        (Result.failed 2 batchMissing around.output).flushed around.flushFails []
      else conclude around.flushFails m.run

/-- Writes the listing of a program. -/
def dumpProgram (program : Program) (output : Output) : Result :=
  match listing? program with
  | none => .broken .notWritten output
  | some text =>
    match output.write? (text ++ "\n").toUTF8.data.toList with
    | some output => ⟨.returned 0, output, []⟩
    | none => .broken .textLost output

/-- Compiles the text of a program at a level and does what the settings say. -/
def processAt (level : Int) (settings : Settings) (around : Surroundings) (text : List Char)
    (input : Input) : Result :=
  match compile level text with
  | .error rejection => .failed 1 (rejection.error.diagnose text).message around.output
  | .ok c =>
    let result :=
      if settings.dump then dumpProgram c.program around.output
      else runProgram settings around c.program input
    result.after [compiledEntry text c, commandsEntry text c]

/-- Processes the bytes of a program. Without a level all goes well until a loop asks for it. -/
def process (settings : Settings) (around : Surroundings) (bytes : List UInt8) (input : Input) :
    Result :=
  let text := textOfBytes bytes
  match settings.level with
  | .value level => processAt level settings around text input
  | .blank =>
    if asksForLevel text then .broken .blankLevel around.output
    else processAt 0 settings around text input

/-- Reads the program and processes it. -/
def serve (request : Request) (around : Surroundings) : Result :=
  let unread (text : String) : Result :=
    .failed 1 ("Failed to read program code: " ++ text) around.output
  match request.file with
  | none =>
    match around.input.readAll? with
    | none => unread RunError.readFailed.message
    | some (bytes, input) => process request.settings around bytes input
  | some name =>
    if name.toList.contains '\x00' then .broken .nulInName around.output
    else match around.file (normalName name) with
      | .error e => unread (e.message (normalName name))
      | .ok bytes => process request.settings around bytes around.input

/-- The reply to a call. -/
def reply (arguments : List String) (around : Surroundings) : Reply :=
  match Request.ofArguments arguments with
  | .error .help =>
    match around.output.write? help.toUTF8.data.toList with
    | some output => ⟨.stopped 0, output, ""⟩
    | none => ⟨.broken .textLost, around.output, ""⟩
  | .error (.misuse e) => ⟨.stopped 2, around.output, e.report⟩
  | .ok request =>
    let result := serve request around
    ⟨result.exit, result.output, logText request.settings.verbose result.entries⟩

end TapeLang.CommandLine
