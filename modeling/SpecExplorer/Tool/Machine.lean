/-
# The machine that the explorer works on

A machine has a disk, and on it perhaps the test tool. Calling the tool takes some time, leaves a
note of how it was called, and gives what the tool says about outlines, runs and coverage. All of
it is a function of the disk, so a session can be replayed.
-/
import SpecExplorer.Outline.Cache
import SpecExplorer.Outline.Decode
import SpecExplorer.Run.Command
import SpecExplorer.Run.Report
import SpecExplorer.Run.Stream
import SpecExplorer.Tool.Disk

namespace SpecExplorer

structure Machine where
  disk : Disk
  /-- The milliseconds that it takes to start a program and hear of its end. -/
  latency : Nat
  /-- What a stand-in for the tool says about a file and its text. -/
  standIn : String → FilePath → String → Except OutlineFault Outline

/-- How a program ended that was started, and what it left. -/
structure Outcome where
  /-- A note of the call, line by line. -/
  notes : List String
  stdout : String
  stderr : String
  status : ExitStatus
  millis : Nat
  /-- The report in the directory for it. -/
  report : Option String
  /-- The profile in the directory for it. -/
  profile : Option String
  deriving DecidableEq, Repr

/-- Something that takes a while and leaves notes. -/
structure Timed (α : Type) where
  notes : List String
  millis : Nat
  value : α
  deriving Repr

namespace Machine

/-! ### Finding the tool -/

/-- Whether a path is more than a bare name. -/
def hasSeparator (p : FilePath) : Bool :=
  let r := p.route
  1 < r.steps.length + (if r.absolute then 1 else 0)

/-- The executable that a path leads to. A bare name is not found. -/
def resolve? (m : Machine) (p : FilePath) : Option FilePath :=
  if !hasSeparator p then none
  else
    let p := if p.isAbsolute then p else m.disk.here.join p
    match m.disk.entry p with
    | .ok (.file f) => if f.program.isSome then some p else none
    | _ => none

/-! ### Starting programs -/

/-- Interpreters that every machine has. -/
def interpreters : List String :=
  ["/bin/sh", "/bin/bash", "/bin/dash", "/usr/bin/env", "/usr/bin/sh", "/usr/bin/bash"]

/-- The interpreter that the first line of a file names. -/
def interpreter? (bytes : List UInt8) : Option FilePath :=
  match bytes with
  | 0x23 :: 0x21 :: rest =>
    let isBlank (b : UInt8) : Bool := b == 0x20 || b == 0x09
    let name := ((rest.takeWhile (· != 0x0A)).dropWhile isBlank).takeWhile (!isBlank ·)
    if name.isEmpty then none else some ⟨name⟩
  | _ => none

/-- Nothing is printed or left, and all is well. -/
def silent : ScriptPart := ⟨none, none, "", "", 0, none, 0⟩

/-- What a file does once it is started. -/
def scriptOf (f : DiskFile) : Except SpawnFault Script :=
  match f.program with
  | none => .error .permissionDenied
  | some (.script s) => .ok s
  | some .text =>
    match interpreter? f.bytes with
    | none => .error .execFormat
    | some name =>
      if interpreters.contains name.display then .ok ⟨silent, silent, silent⟩
      else .error .noSuchFile

/-- The directory that a program is to work in. -/
def workingDir (m : Machine) (dir : FilePath) : Except SpawnFault DiskPlace :=
  if dir.bytes.isEmpty then .error .noSuchFile
  else match m.disk.entry dir with
  | .ok (.directory place) => .ok place
  | .ok (.file _) => .error .notADirectory
  | .error .notADirectory => .error .notADirectory
  | .error _ => .error .noSuchFile

/-- The directory of a place as it is written. -/
def placeText (place : DiskPlace) : String :=
  if place.isEmpty then "/" else String.join (place.map fun name => "/" ++ Text.fromUtf8Lossy name)

/-- The start of the argument that names the directory for reports. -/
def outputFlag : String := "-output-dir="

/-- The directory for reports that the arguments name last. -/
def outputDir? (args : List String) : Option String :=
  (args.reverse.find? (·.startsWith outputFlag)).map fun a => String.ofList (a.toList.drop 12)

/-- An argument as it is noted; directories for reports have no lasting name. -/
def argNote (arg : String) : String :=
  "arg " ++ if arg.startsWith outputFlag then outputFlag ++ "<tmp>" else arg

/-- The note of a call, line by line. -/
def callNotes (dir : DiskPlace) (args : List String) (input : Option String) : List String :=
  Text.lines (String.join
    (("cwd " ++ placeText dir ++ "\n") :: args.map (fun a => argNote a ++ "\n") ++
      (input.map fun text => "stdin " ++ text ++ "\n").toList))

/-- The part of a script that a call asks for. -/
def partFor (s : Script) (args : List String) : ScriptPart :=
  if args.head? = some "outline" then s.outline
  else if args.contains "-cover" then s.cover
  else s.run

/-- Starts a program. `outputDir` is where its report is looked for. -/
def call (m : Machine) (program dir : FilePath) (args : List String) (input : Option String)
    (outputDir : Option String) : Except SpawnFault Outcome := do
  let place ← m.workingDir dir
  let file ← match m.disk.entry program with
    | .ok (.file f) => .ok f
    | _ => .error .noSuchFile
  let script ← scriptOf file
  let part := partFor script args
  let found {α : Type} (a : Option α) : Option α :=
    if outputDir.isSome && outputDir? args == outputDir then a else none
  .ok {
    notes :=
      if file.keepsNotes then
        callNotes place args (if args.head? = some "outline" then some (input.getD "") else none)
      else []
    stdout := part.stdout
    stderr := part.stderr
    status := match part.signal with
      | some signal => .killed signal
      | none => .exited (part.exit % 256)
    millis := m.latency + part.millis
    report := found part.report
    profile := found part.profile }

/-! ### Outlines -/

/-- How long the tool may take for an outline. -/
def outlineTimeout : Nat := 30000

/-- The tool as faults name it. -/
def outlineTool : String := "ginkgo outline"

/-- The answer that a finished call gives for a text. -/
def outlineOf (content : String) (o : Outcome) : Except OutlineFault Outline :=
  if !o.status.success then
    .error (.invocation outlineTool (.exited o.status) (Text.trim o.stderr))
  else match Outline.decode? o.stdout content with
    | some outline => .ok outline
    | none => .error .unreadable

/-- Asks the tool at a path for the outline of a file's text. -/
def toolOutline (m : Machine) (tool : FilePath) (timeout : Nat) (path : FilePath)
    (content : String) : Timed (Except OutlineFault Outline) :=
  match m.resolve? tool with
  | none => ⟨[], 0, .error (.toolNotFound tool)⟩
  | some program =>
    match m.call program path.packageDir outlineArgs (some content) none with
    | .error .noSuchFile => ⟨[], 0, .error (.toolNotFound tool)⟩
    | .error fault => ⟨[], 0, .error (.invocation outlineTool .spawnFailed fault.message)⟩
    | .ok o =>
      if timeout < o.millis then
        ⟨o.notes, timeout, .error (.invocation outlineTool (.timedOut timeout) "")⟩
      else ⟨o.notes, o.millis, outlineOf content o⟩

/-- Asks a provider for an outline. -/
def outline (m : Machine) (provider : OutlineProvider) (r : OutlineRequest) :
    Timed (Except OutlineFault Outline) :=
  match provider with
  | .tool path => m.toolOutline path outlineTimeout r.path r.content
  | .standIn name millis => ⟨[], millis, m.standIn name r.path r.content⟩

/-! ### Runs -/

/-- A name for the directory that a run leaves its report in. -/
def reportDir : String := "/tmp/report"

/-- The events of the report that a run left. -/
def reportEvents (report : Option String) : List RunEvent :=
  match report with
  | none => []
  | some text =>
    match DecodedReport.decode text with
    | .error m => [.malformed m]
    | .ok d => d.output.map .output ++ d.records.map .record

/-- What a run prints. -/
def printedEvents (o : Outcome) : List RunEvent :=
  RunEvent.ofStdout (Text.toUtf8 o.stdout) ++ RunEvent.ofStderr (Text.toUtf8 o.stderr)

/-- What is told once a run has ended. The report counts only where no record was printed. -/
def closingEvents (o : Outcome) : List RunEvent :=
  let printed := RunEvent.ofStdout (Text.toUtf8 o.stdout)
  (if RunEvent.countRecords printed = 0 then reportEvents o.report else []) ++
    [.exited o.status.success (o.status.code?.map Int.ofNat)]

/-- All events of a run in order. -/
def runEvents (o : Outcome) : List RunEvent :=
  .started :: (printedEvents o ++ closingEvents o)

/-- Starts a program for a runner. -/
def start (m : Machine) (tool dir : FilePath) (args : List String) : Except RunFault Outcome :=
  match m.resolve? tool with
  | none => .error (.toolNotFound tool)
  | some program =>
    match m.call program dir args none (some reportDir) with
    | .error fault => .error (.spawnFailed program fault)
    | .ok o => .ok o

/-- Starts a run. -/
def run (m : Machine) (r : Runner) (request : RunRequest) : Except RunFault Outcome :=
  m.start r.toolPath request.packageDir (r.args request reportDir)

/-! ### Coverage -/

/-- The coverage that a finished call reports. -/
def coverageOf (o : Outcome) : Except RunFault CoverageReport :=
  match o.profile with
  | none => .error (.coverage (.noProfile (Text.trim o.stderr)))
  | some text =>
    match CoverageReport.parse text with
    | .ok report => .ok report
    | .error fault => .error (.coverage fault)

/-- Runs a package for its coverage. -/
def coverage (m : Machine) (r : Runner) (dir : FilePath) :
    Timed (Except RunFault CoverageReport) :=
  match m.start r.toolPath dir (Runner.coverageArgs dir reportDir) with
  | .error fault => ⟨[], 0, .error fault⟩
  | .ok o => ⟨o.notes, o.millis, coverageOf o⟩

end Machine

end SpecExplorer
