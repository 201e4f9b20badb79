import TapeLang.CommandLine.Reply
import TapeLang.Proofs.Growing

/-!
# Failures of the system

A call comes upon the system in several places: it reads the program from a file or from the input,
the running program reads and writes bytes, its output is flushed behind it, and a listing is
written as a whole. Any of these can fail (`Request.Meets`). What the call comes upon while it reads
the program or runs it is reported; a listing that cannot be written and an output that cannot be
flushed break the call off, and the latter also takes the place of what has been reported before
(`system_failures_reported_iff`).
-/

set_option autoImplicit false

namespace TapeLang.CommandLine

/-! ## What can fail -/

/-- A failure of the system that a call comes upon. -/
inductive SystemFailure where
  /-- The program cannot be read, for a reason in words. -/
  | source (text : String)
  /-- A read of the running program has failed. -/
  | input
  /-- A write of the running program has failed. -/
  | output
  /-- The listing cannot be written. -/
  | listing
  /-- What the run has written cannot be flushed. -/
  | flush
deriving DecidableEq, Repr

/-- The text of the report that is due. -/
def SystemFailure.report : SystemFailure → String
  | source text => "Failed to read program code: " ++ text
  | input => "I/O error: " ++ RunError.readFailed.message
  | output | listing | flush => "I/O error: " ++ RunError.pipeClosed.message

/-- The breach is a failure of the system that nothing has caught. -/
def Breach.IsSystemFailure : Breach → Prop
  | textLost | outputLost => True
  | run raised => raised = .error .readFailed ∨ raised = .error .pipeClosed
  | _ => False

/-- The level at which the text of a program is compiled, if there is one or none is asked for. -/
def Settings.levelFor? (settings : Settings) (text : List Char) : Option Int :=
  match settings.level with
  | .value level => some level
  | .blank => if asksForLevel text then none else some 0

namespace Request

variable (request : Request) (around : Surroundings)

/-- The name of the program's file has no NUL in it. -/
def HasPlainName : Prop := ∀ name, request.file = some name → ¬ name.toList.contains '\x00'

/-- The bytes of the program and the input that is left for it, or why they cannot be read. -/
def source : Except String (List UInt8 × Input) :=
  match request.file with
  | none =>
    match around.input.readAll? with
    | none => .error RunError.readFailed.message
    | some read => .ok read
  | some name =>
    match around.file (normalName name) with
    | .error e => .error (e.message (normalName name))
    | .ok bytes => .ok (bytes, around.input)

/-- The call compiles its text to a program, with some input left for it. -/
inductive Compiles : Program → Input → Prop
  | intro {bytes : List UInt8} {input : Input} {level : Int} {c : Compilation} :
      request.source around = .ok (bytes, input) →
      request.settings.levelFor? (textOfBytes bytes) = some level →
      compile level (textOfBytes bytes) = .ok c → Compiles c.program input

/-- The call makes a machine for its program. -/
inductive Makes : Machine → Prop
  | intro {program : Program} {input : Input} {options : Options} {m : Machine} :
      request.Compiles around program input → request.settings.dump = false →
      request.settings.runOptions = .ok options →
      Machine.new program options input around.output around.memory = .ok m → Makes m

/-- The call runs a machine. -/
structure Runs (m : Machine) : Prop where
  made : request.Makes around m
  hasEngine : m.options.engine = .batch → around.hasBatch

/-- The call comes upon a failure of the system. -/
inductive Meets : SystemFailure → Prop
  | source {text : String} : request.source around = .error text → Meets (.source text)
  | input {m : Machine} {n : Nat} {c : Int × State} {i : Instruction} :
      request.Runs around m → m.after n = some c → m.executed? c = some i → i.kind = .scan →
      c.2.input.read? = none → Meets .input
  | output {m : Machine} {n : Nat} {c : Int × State} {i : Instruction} :
      request.Runs around m → m.after n = some c → m.executed? c = some i → i.kind = .print →
      (c.2.output.putMany (c.2.tape.get c.2.pointer) i.arg.toNat).2 = false → Meets .output
  | listing {program : Program} {input : Input} {text : String} :
      request.Compiles around program input → request.settings.dump = true →
      listing? program = some text →
      around.output.write? (text ++ "\n").toUTF8.data.toList = none → Meets .listing
  | flush {m : Machine} : request.Makes around m → around.flushFails → Meets .flush

end Request

/-! ## Reports -/

/-- The result ends with a report, and with the status for it. -/
def Result.Reports (r : Result) (text : String) : Prop :=
  r.exit = .returned 1 ∧ ∃ entries, r.entries = entries ++ [⟨.error, text⟩]

/-- The last line of the log is a report, and the status is the one for it. -/
def Reply.Reports (r : Reply) (text : String) : Prop :=
  r.exit = .returned 1 ∧ ∃ before, r.log = before ++ Entry.line ⟨.error, text⟩

theorem Result.Reports.failed (text : String) (output : Output) :
    Result.Reports (.failed 1 text output) text := ⟨rfl, [], rfl⟩

theorem Result.Reports.after {r : Result} {text : String} (h : r.Reports text)
    (entries : List Entry) : Result.Reports (r.after entries) text := by
  obtain ⟨hexit, before, hentries⟩ := h
  refine ⟨hexit, entries ++ before, ?_⟩
  rw [Result.after, hentries, List.append_assoc]

/-- A flush that succeeds leaves a report as it is. -/
theorem Result.Reports.flushed {r : Result} {text : String} (h : r.Reports text) :
    Result.Reports (r.flushed false []) text := by
  obtain ⟨hexit, before, hentries⟩ := h
  refine ⟨hexit, before, ?_⟩
  rw [← hentries]
  exact List.append_nil r.entries

/-- An error is logged whatever is asked for. -/
theorem logText_append_error (verbose : Bool) (entries : List Entry) (text : String) :
    logText verbose (entries ++ [⟨.error, text⟩])
      = logText verbose entries ++ Entry.line ⟨.error, text⟩ := by
  simp [logText, String.join_append]

theorem reply_of_request {arguments : List String} {request : Request} (around : Surroundings)
    (h : Request.ofArguments arguments = .ok request) :
    (reply arguments around).exit = (serve request around).exit ∧
      (reply arguments around).log
        = logText request.settings.verbose (serve request around).entries := by
  unfold reply
  rw [h]
  exact ⟨rfl, rfl⟩

theorem reports_of_serve {arguments : List String} {request : Request} {around : Surroundings}
    {text : String} (h : Request.ofArguments arguments = .ok request)
    (hserve : (serve request around).Reports text) : (reply arguments around).Reports text := by
  obtain ⟨hexit, hlog⟩ := reply_of_request around h
  obtain ⟨hstatus, entries, hentries⟩ := hserve
  refine ⟨hexit.trans hstatus, logText request.settings.verbose entries, ?_⟩
  rw [hlog, hentries, logText_append_error]

/-! ## From the request to the run -/

theorem process_eq (settings : Settings) (around : Surroundings) (bytes : List UInt8)
    (input : Input) :
    process settings around bytes input =
      match settings.levelFor? (textOfBytes bytes) with
      | some level => processAt level settings around (textOfBytes bytes) input
      | none => .broken .blankLevel around.output := by
  unfold process Settings.levelFor?
  cases settings.level with
  | value level => rfl
  | blank =>
    simp only
    split <;> rfl

section
variable {request : Request} {around : Surroundings} (hname : request.HasPlainName)
include hname

theorem serve_eq :
    serve request around =
      match request.source around with
      | .error text => .failed 1 ("Failed to read program code: " ++ text) around.output
      | .ok (bytes, input) =>
        process request.settings around bytes input := by
  unfold serve Request.source
  cases hfile : request.file with
  | none =>
    simp only
    cases around.input.readAll? with
    | none => rfl
    | some read => rfl
  | some name =>
    simp only [if_neg (hname name hfile)]
    cases around.file (normalName name) with
    | error e => rfl
    | ok bytes => rfl

/-- What is done with a compiled program. -/
theorem serve_of_compiles {program : Program} {input : Input}
    (h : request.Compiles around program input) :
    ∃ entries, serve request around = Result.after entries
      (if request.settings.dump then dumpProgram program around.output
        else runProgram request.settings around program input) := by
  cases h with
  | @intro bytes _ level c hsource hlevel hcompile =>
    refine ⟨[compiledEntry (textOfBytes bytes) c, commandsEntry (textOfBytes bytes) c], ?_⟩
    rw [serve_eq hname, hsource]
    simp only [process_eq, hlevel, processAt, hcompile]

/-- Nothing breaks the call off before the program is compiled, but a blank level. -/
theorem compiles_of_broken {b : Breach} (h : (serve request around).exit = .broken b)
    (hb : b ≠ .blankLevel) : ∃ program input, request.Compiles around program input := by
  rw [serve_eq hname] at h
  cases hsource : request.source around with
  | error text =>
    rw [hsource] at h
    cases h
  | ok read =>
    obtain ⟨bytes, input⟩ := read
    rw [hsource] at h
    simp only [process_eq] at h
    cases hlevel : request.settings.levelFor? (textOfBytes bytes) with
    | none =>
      rw [hlevel] at h
      cases h
      exact absurd rfl hb
    | some level =>
      rw [hlevel] at h
      simp only [processAt] at h
      cases hcompile : compile level (textOfBytes bytes) with
      | error rejection =>
        rw [hcompile] at h
        cases h
      | ok c => exact ⟨c.program, input, .intro hsource hlevel hcompile⟩

end

/-! ## Runs -/

/-- A run that a stream has failed is reported, if the flush behind it succeeds. -/
theorem reports_conclude {rep : Report} {error : RunError} (h : rep.ending = .failed error)
    (herror : error = .readFailed ∨ error = .pipeClosed) :
    (conclude false rep).Reports ("I/O error: " ++ error.message) := by
  have hreport : (reportFailure error.raised rep.state.output).Reports
      ("I/O error: " ++ error.message) := by
    rcases herror with rfl | rfl <;> exact .failed _ _
  unfold conclude
  rw [h]
  exact (hreport.after _).flushed

/-- A flush that fails breaks the call off, however the run has ended. -/
theorem conclude_of_flushFails {rep : Report} (h : (conclude true rep).exit ≠ .unfinished) :
    (conclude true rep).exit = .broken .outputLost := by
  unfold conclude at h ⊢
  cases hending : rep.ending with
  | unfinished index =>
    rw [hending] at h
    exact absurd rfl h
  | _ => rfl

/-- A run breaks the call off with its error only if the system is not to blame. -/
theorem not_isSystemFailure_of_conclude {rep : Report} {b : Breach}
    (h : (conclude false rep).exit = .broken b) : ¬ b.IsSystemFailure := by
  have hreport {raised : Raised} {output : Output}
      (h : (reportFailure raised output).exit = .broken b) : ¬ b.IsSystemFailure := by
    unfold reportFailure at h
    split at h
    · split at h
      · cases h
      · cases h
      · rename_i hread hpipe
        split at h
        · cases h
        · cases h
          rintro (hraised | hraised) <;> cases hraised
          · exact hread rfl
          · exact hpipe rfl
    · cases h
      rintro (hraised | hraised) <;> cases hraised
  unfold conclude at h
  cases hending : rep.ending with
  | completed =>
    rw [hending] at h
    cases h
  | unfinished index =>
    rw [hending] at h
    cases h
  | failed e =>
    rw [hending] at h
    exact hreport h

/-- What breaks a run off is no failure of the system but that of the flush. -/
theorem flushFails_of_runProgram {settings : Settings} {around : Surroundings} {program : Program}
    {input : Input} {b : Breach}
    (h : (runProgram settings around program input).exit = .broken b) (hb : b.IsSystemFailure) :
    around.flushFails ∧ ∃ options m, settings.runOptions = .ok options ∧
      Machine.new program options input around.output around.memory = .ok m := by
  have hrefusal {refusal : OptionsError}
      (h : (reportRefusal refusal around.output).exit = .broken b) : ¬ b.IsSystemFailure := by
    unfold reportRefusal at h
    split at h
    · cases h
      exact id
    · cases h
  unfold runProgram at h
  split at h
  · exact absurd hb (hrefusal h)
  · cases h
    exact hb.elim
  · rename_i options hoptions
    split at h
    · exact absurd hb (hrefusal h)
    · rename_i m hm
      refine ⟨?_, options, m, hoptions, hm⟩
      by_contra hflush
      rw [Bool.not_eq_true] at hflush
      rw [hflush] at h
      split at h
      · cases h
      · exact not_isSystemFailure_of_conclude h hb

section
variable {m : Machine} {n : Nat} {c : Int × State} {i : Instruction}

/-- An instruction that uses a stream is executed in the same way on either engine. -/
theorem take_eq_execute (h : m.Fits c) (hi : m.executed? c = some i)
    (hstream : i.kind = .scan ∨ i.kind = .print) :
    ∃ checked, m.take c = (Stepwise.execute checked i c.1 c.2).resumption := by
  obtain ⟨henters, hlimit, hfetch⟩ := Machine.executed?_eq_some_iff.1 hi
  cases m.mode with
  | stepwise _ htake =>
    rw [htake, Stepwise.take, Batch.step_of_fetch? hfetch hlimit]
    exact ⟨_, rfl⟩
  | refused hengine hargs => exact absurd (henters hengine).1 hargs
  | batch hengine _ htake =>
    obtain ⟨-, -, hbudget⟩ := henters hengine
    have hkind : i.kind.hasTarget = false ∧ i.kind.isLoop = false := by
      rcases hstream with hkind | hkind <;> rw [hkind] <;> exact ⟨rfl, rfl⟩
    rw [htake]
    exact ⟨false, Batch.turn_eq_execute (h.held hengine) hbudget hlimit hfetch (by simp [hkind])
      (by simp [hkind])⟩

theorem take_of_scan (h : m.Fits c) (hi : m.executed? c = some i) (hkind : i.kind = .scan)
    (hread : c.2.input.read? = none) : m.take c = .ended (.failed .readFailed) c.2 := by
  obtain ⟨checked, htake⟩ := take_eq_execute h hi (.inl hkind)
  rw [htake]
  simp only [Stepwise.execute, hkind, State.scan, hread]
  rfl

theorem take_of_print (h : m.Fits c) (hi : m.executed? c = some i) (hkind : i.kind = .print)
    (hwrite : (c.2.output.putMany (c.2.tape.get c.2.pointer) i.arg.toNat).2 = false) :
    ∃ s, m.take c = .ended (.failed .pipeClosed) s := by
  obtain ⟨checked, htake⟩ := take_eq_execute h hi (.inr hkind)
  rw [h.inside.get_eq] at hwrite
  have hprint := (State.print_eq_error_iff h.inside).2 ⟨hwrite, rfl⟩
  rw [htake]
  simp only [Stepwise.execute, hkind, hprint]
  exact ⟨_, rfl⟩

/-- The run of a machine ends where its walk does, unless it takes too long. -/
theorem ending_of_take {program : Program} {options : Options} {input : Input} {output : Output}
    {memory : Memory} {error : RunError} {s : State}
    (hm : Machine.new program options input output memory = .ok m)
    (hafter : m.after n = some c) (hend : m.take c = .ended (.failed error) s)
    (hfinal : m.run.ending.IsFinal) : m.run.ending = .failed error := by
  obtain ⟨events, h⟩ := (Machine.ends_iff_after hm).2 ⟨n, c, hafter, hend⟩
  have hrun : m.Ends m.run := ⟨endless, rfl, hfinal⟩
  exact (Machine.ends_unique hm hrun h).1

end

section
variable {request : Request} {around : Surroundings} (hname : request.HasPlainName)
include hname

theorem serve_of_makes {m : Machine} (h : request.Makes around m) :
    ∃ entries, serve request around = Result.after entries
      (if m.options.engine = .batch ∧ ¬ around.hasBatch then
        (Result.failed 2 batchMissing around.output).flushed around.flushFails []
      else conclude around.flushFails m.run) := by
  cases h with
  | intro hcompiles hdump hoptions hm =>
    obtain ⟨entries, hserve⟩ := serve_of_compiles hname hcompiles
    refine ⟨entries, ?_⟩
    rw [hserve, if_neg (by simp [hdump])]
    simp only [runProgram, hoptions, hm]

theorem serve_of_runs {m : Machine} (h : request.Runs around m) :
    ∃ entries, serve request around
      = Result.after entries (conclude around.flushFails m.run) := by
  obtain ⟨entries, hserve⟩ := serve_of_makes hname h.made
  rw [if_neg fun hmissing => hmissing.2 (h.hasEngine hmissing.1)] at hserve
  exact ⟨entries, hserve⟩

/-- A stream that fails the run is reported, unless the run takes too long or the flush fails. -/
theorem reports_of_runs {m : Machine} {n : Nat} {c : Int × State} {error : RunError} {s : State}
    (h : request.Runs around m) (hafter : m.after n = some c)
    (hend : m.take c = .ended (.failed error) s)
    (herror : error = .readFailed ∨ error = .pipeClosed)
    (hflush : ¬ request.Meets around .flush)
    (hfinished : (serve request around).exit ≠ .unfinished) :
    (serve request around).Reports ("I/O error: " ++ error.message) := by
  have hflushes : around.flushFails = false :=
    (Bool.eq_false_or_eq_true _).resolve_left fun hfails => hflush (.flush h.made hfails)
  obtain ⟨entries, hserve⟩ := serve_of_runs hname h
  rw [hflushes] at hserve
  rw [hserve] at hfinished ⊢
  cases h.made with
  | intro _ _ _ hm =>
    have hfinal : m.run.ending.IsFinal := by
      intro index hending
      apply hfinished
      simp only [Result.after, conclude, hending]
    exact (reports_conclude (ending_of_take hm hafter hend hfinal) herror).after entries

/-- A failure of the system is reported if it is not the listing that cannot be written, and if
there is no flush that fails. -/
theorem reports_of_meets {failure : SystemFailure} (h : request.Meets around failure)
    (hlisting : failure ≠ .listing) (hflush : ¬ request.Meets around .flush)
    (hfinished : (serve request around).exit ≠ .unfinished) :
    (serve request around).Reports failure.report := by
  cases id h with
  | source hsource =>
    rw [serve_eq hname, hsource]
    exact .failed _ _
  | input hruns hafter hi hkind hread =>
    cases hruns.made with
    | intro _ _ _ hm =>
      have hend := take_of_scan (Machine.fits_of_after hm hafter) hi hkind hread
      exact reports_of_runs hname hruns hafter hend (.inl rfl) hflush hfinished
  | output hruns hafter hi hkind hwrite =>
    cases hruns.made with
    | intro _ _ _ hm =>
      obtain ⟨s, hend⟩ := take_of_print (Machine.fits_of_after hm hafter) hi hkind hwrite
      exact reports_of_runs hname hruns hafter hend (.inr rfl) hflush hfinished
  | listing => exact absurd rfl hlisting
  | flush => exact absurd h hflush

/-- A listing that cannot be written breaks the call off. -/
theorem broken_of_listing (h : request.Meets around .listing) :
    (serve request around).exit = .broken .textLost := by
  cases h with
  | listing hcompiles hdump htext hwrite =>
    obtain ⟨entries, hserve⟩ := serve_of_compiles hname hcompiles
    rw [hserve, if_pos hdump]
    simp only [dumpProgram, htext, hwrite]
    rfl

/-- An output that cannot be flushed breaks the call off, whatever has been reported before. -/
theorem broken_of_flush (h : request.Meets around .flush)
    (hfinished : (serve request around).exit ≠ .unfinished) :
    (serve request around).exit = .broken .outputLost := by
  cases h with
  | flush hmakes hfails =>
    obtain ⟨entries, hserve⟩ := serve_of_makes hname hmakes
    rw [hfails] at hserve
    rw [hserve] at hfinished ⊢
    split at hfinished
    · rename_i hmissing
      rw [if_pos hmissing]
      rfl
    · rename_i hhas
      rw [if_neg hhas]
      exact conclude_of_flushFails hfinished

/-- Nothing else that the system fails breaks it off. -/
theorem meets_of_broken {b : Breach} (h : (serve request around).exit = .broken b)
    (hb : b.IsSystemFailure) : request.Meets around .listing ∨ request.Meets around .flush := by
  obtain ⟨program, input, hcompiles⟩ := compiles_of_broken hname h (by rintro rfl; exact hb)
  obtain ⟨entries, hserve⟩ := serve_of_compiles hname hcompiles
  rw [hserve] at h
  replace h : (if request.settings.dump then dumpProgram program around.output
      else runProgram request.settings around program input).exit = .broken b := h
  split at h
  · rename_i hdump
    unfold dumpProgram at h
    split at h
    · cases h
      exact hb.elim
    · rename_i htext
      split at h
      · cases h
      · rename_i hwrite
        exact .inl (.listing hcompiles hdump htext hwrite)
  · rename_i hdump
    obtain ⟨hfails, options, m, hoptions, hm⟩ := flushFails_of_runProgram h hb
    exact .inr (.flush (.intro hcompiles (Bool.not_eq_true _ ▸ hdump) hoptions hm) hfails)

end

/-- **Failures of the system are reported, but for a listing that cannot be written and an output
that cannot be flushed.** A failure to read the program or to read or write a byte for it is the
last line of the log, with status one, unless the run takes too long or the flush behind it fails
too. These two break the call off instead; and nothing else that the system fails does that. -/
theorem system_failures_reported_iff {arguments : List String} {request : Request}
    {around : Surroundings} (h : Request.ofArguments arguments = .ok request)
    (hname : request.HasPlainName) :
    (∀ failure, request.Meets around failure → (reply arguments around).exit ≠ .unfinished →
      ((reply arguments around).Reports failure.report ↔
        failure ≠ .listing ∧ ¬ request.Meets around .flush)) ∧
    ∀ b, (reply arguments around).exit = .broken b → b.IsSystemFailure →
      request.Meets around .listing ∨ request.Meets around .flush := by
  obtain ⟨hexit, -⟩ := reply_of_request around h
  rw [hexit]
  refine ⟨fun failure hmeets hfinished => ⟨?_, fun hdue => ?_⟩, fun b => meets_of_broken hname⟩
  · rintro ⟨hstatus, -⟩
    rw [hexit] at hstatus
    constructor
    · rintro rfl
      rw [broken_of_listing hname hmeets] at hstatus
      cases hstatus
    · intro hflush
      rw [broken_of_flush hname hflush hfinished] at hstatus
      cases hstatus
  · exact reports_of_serve h (reports_of_meets hname hmeets hdue.1 hdue.2 hfinished)

/-- A program that reads, and a first read that fails. -/
theorem system_failures_reported_iff_scan :
    ∃ around : Surroundings, around.file "p.bf" = .ok [44] ∧ around.input.readsLeft = some 0 ∧
      Request.ofArguments ["p.bf"] = .ok ⟨{}, some "p.bf"⟩ ∧
      Request.HasPlainName ⟨{}, some "p.bf"⟩ ∧ Request.Meets ⟨{}, some "p.bf"⟩ around .input ∧
      (reply ["p.bf"] around).exit ≠ .unfinished ∧
      (reply ["p.bf"] around).Reports "I/O error: read failed" := by
  have haround : ∃ around : Surroundings, around.file "p.bf" = .ok [44] ∧
      around.input.readsLeft = some 0 ∧ around.flushFails = false ∧
      Request.Meets ⟨{}, some "p.bf"⟩ around .input ∧
      (reply ["p.bf"] around).exit = .returned 1 :=
    ⟨{ file := fun _ => .ok [44], input := { readsLeft := some 0 } }, rfl, rfl, rfl,
      .input (n := 0) ⟨.intro (.intro rfl rfl rfl) rfl rfl rfl, nofun⟩ rfl rfl rfl rfl, rfl⟩
  obtain ⟨around, hfile, hreads, hflushes, hmeets, hexit⟩ := haround
  have hrequest : Request.ofArguments ["p.bf"] = .ok ⟨{}, some "p.bf"⟩ := rfl
  have hname : Request.HasPlainName ⟨{}, some "p.bf"⟩ := by
    rintro name ⟨⟩
    decide
  have hfinished : (reply ["p.bf"] around).exit ≠ .unfinished := by
    rw [hexit]
    nofun
  have hflush : ¬ Request.Meets ⟨{}, some "p.bf"⟩ around .flush := by
    intro hmeets
    cases hmeets with
    | flush _ hfails =>
      rw [hflushes] at hfails
      cases hfails
  refine ⟨around, hfile, hreads, hrequest, hname, hmeets, hfinished, ?_⟩
  exact ((system_failures_reported_iff hrequest hname).1 .input hmeets hfinished).2
    ⟨nofun, hflush⟩

/-- A read that fails, and then a flush: the report is in the log, but the call breaks off. -/
example :
    let around : Surroundings :=
      { file := fun _ => .ok [44], input := { readsLeft := some 0 }, flushFails := true }
    (reply ["p.bf"] around).exit = .broken .outputLost := rfl

/-- A listing is asked for, and the output takes nothing. -/
theorem not_forall_system_failures_reported :
    ¬ ∀ (arguments : List String) (request : Request) (around : Surroundings)
      (failure : SystemFailure), Request.ofArguments arguments = .ok request →
      request.HasPlainName → request.Meets around failure →
      (reply arguments around).exit ≠ .unfinished →
      (reply arguments around).Reports failure.report := by
  intro hreports
  have haround : ∃ around : Surroundings,
      Request.Meets ⟨{ dump := true }, some "p.bf"⟩ around .listing ∧
      (reply ["--dump", "p.bf"] around).exit = .broken .textLost :=
    ⟨{ file := fun _ => .ok [43], output := { limit := some 0 } },
      .listing (.intro rfl rfl rfl) rfl rfl rfl, rfl⟩
  obtain ⟨around, hmeets, hexit⟩ := haround
  have hname : Request.HasPlainName ⟨{ dump := true }, some "p.bf"⟩ := by
    rintro name ⟨⟩
    decide
  obtain ⟨hstatus, -⟩ := hreports ["--dump", "p.bf"] _ around .listing rfl hname hmeets
    (by rw [hexit]; nofun)
  rw [hexit] at hstatus
  cases hstatus

end TapeLang.CommandLine
