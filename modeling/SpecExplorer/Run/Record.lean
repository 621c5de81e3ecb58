/-
# Records of a run

While it runs, the test tool may write one JSON object per line: a record for each finished spec
and one for the suite at the end. The member `kind` says which of the two a record is, wherever it
stands among the others. All members of a record are built as values before they are read, so a
fault inside an unknown member spoils the record too.
-/
import SpecExplorer.FilePath
import SpecExplorer.Json.Reader
import SpecExplorer.Run.Result
import SpecExplorer.Text.Blank

namespace SpecExplorer

/-- A spec has finished. -/
structure SpecRecord where
  /-- The names of the containers around the spec, outermost first. -/
  hierarchy : List String
  leaf : String
  /-- The state as the tool words it. -/
  state : String
  output : Option String
  failure : Option String
  runTime : Option Nat
  /-- The path of the file that declares the spec. -/
  file : Option String
  deriving DecidableEq, Repr

/-- A suite has finished. -/
structure SuiteRecord where
  description : String
  success : Bool
  passed : Nat
  failed : Nat
  skipped : Nat
  runTime : Option Nat
  deriving DecidableEq, Repr

inductive RunRecord where
  | spec (record : SpecRecord)
  | suite (record : SuiteRecord)
  deriving DecidableEq, Repr

namespace SpecRecord

/-- The names from the outermost container down to the spec. -/
def names (r : SpecRecord) : List String := r.hierarchy ++ [r.leaf]

/-- The last step of the file's path. -/
def fileName? (r : SpecRecord) : Option String :=
  r.file.bind fun file => (FilePath.ofString file).fileName?.map FilePath.display

/-- What a state means for the spec; the case of ASCII letters does not matter. -/
def statusOf? (state : String) : Option RunStatus :=
  match state.toLower with
  | "passed" => some .passed
  | "failed" | "panicked" | "interrupted" | "aborted" | "timedout" => some .failed
  | "skipped" | "pending" => some .skipped
  | _ => none

def status? (r : SpecRecord) : Option RunStatus := statusOf? r.state

/-- A text followed by another on a line of its own; the empty text has no line. -/
def appendLine (text line : String) : String :=
  if text.isEmpty || text.toList.getLast? = some '\n' then text ++ line
  else text ++ "\n" ++ line

/-- The output with the failure after it. -/
def captured (r : SpecRecord) : Option String :=
  match r.output, r.failure with
  | some output, some failure => some (appendLine output failure)
  | some output, none => some output
  | none, failure => failure

/-- The result of a spec that ended in a status. -/
def result (r : SpecRecord) (status : RunStatus) : RunResult := ⟨status, r.captured, r.runTime⟩

def fieldNames : List String :=
  ["hierarchy", "leaf", "state", "output", "failure", "runTime", "file"]

def ofFields? (fields : Json.Fields) : Option SpecRecord := do
  some {
    hierarchy := ← fields.withDefault "hierarchy" [] (Json.Reader.listOf Json.Reader.text)
    leaf := ← fields.required "leaf" Json.Reader.text
    state := ← fields.required "state" Json.Reader.text
    output := ← fields.optional "output" Json.Reader.text
    failure := ← fields.optional "failure" Json.Reader.text
    runTime := ← fields.optional "runTime" Json.Reader.word
    file := ← fields.optional "file" Json.Reader.text }

end SpecRecord

namespace SuiteRecord

def fieldNames : List String :=
  ["description", "success", "passed", "failed", "skipped", "runTime"]

def ofFields? (fields : Json.Fields) : Option SuiteRecord := do
  let count := Json.Reader.natUpTo (Width.largest 32)
  some {
    description := ← fields.withDefault "description" "" Json.Reader.text
    success := ← fields.withDefault "success" false Json.Reader.flag
    passed := ← fields.withDefault "passed" 0 count
    failed := ← fields.withDefault "failed" 0 count
    skipped := ← fields.withDefault "skipped" 0 count
    runTime := ← fields.optional "runTime" Json.Reader.word }

end SuiteRecord

/-- Why a line that looks like a record is none. -/
inductive RecordFault where
  /-- The JSON is broken, or its members are not those of a record. -/
  | unreadable
  /-- The state of a spec record is not known. -/
  | unknownState (state : String)
  /-- A whole report cannot be read. -/
  | unreadableReport
  deriving DecidableEq, Repr

namespace RecordFault

def message : RecordFault → String
  | .unreadable => "unreadable JSON"
  | .unknownState state => "unknown spec state '" ++ state ++ "'"
  | .unreadableReport => "unreadable json report: unreadable JSON"

end RecordFault

/-- A line that could not be taken as a record, with the reason. -/
structure MalformedRecord where
  fault : RecordFault
  line : String
  deriving DecidableEq, Repr

namespace RunRecord

/-- The kind of a record and its other members; the kind may be stated once only. -/
def tag? (members : List (String × Json)) : Option (Json × List (String × Json)) :=
  match members.partition (·.1 == "kind") with
  | ([(_, kind)], others) => some (kind, others)
  | _ => none

/-- Reads a record with its members already built as values. The depth no longer counts. -/
def ofJson? : Json → Option RunRecord
  | .object members => do
    let (kind, others) ← tag? members
    let depth := Json.maxDepth
    let raw := (Json.object others).raw
    match ← kind.string? with
    | "spec" => do
      let fields ← Json.Fields.read SpecRecord.fieldNames depth raw
      (SpecRecord.ofFields? fields).map .spec
    | "suite" => do
      let fields ← Json.Fields.read SuiteRecord.fieldNames depth raw
      (SuiteRecord.ofFields? fields).map .suite
    | _ => none
  | _ => none

end RunRecord

/-- What a line of the tool's output turned out to be. -/
inductive StreamLine where
  | record (record : RunRecord)
  | malformed (fault : MalformedRecord)
  | text (line : String)
  deriving DecidableEq, Repr

namespace StreamLine

/-- Tells what a line is. A line is tried as a record when an object seems to start it. -/
def decode (line : String) : StreamLine :=
  let trimmed := Text.trim line
  if trimmed.toList.head? != some '\x7b' then .text line
  else match (Json.read? trimmed).bind RunRecord.ofJson? with
    | none => .malformed ⟨.unreadable, line⟩
    | some (.suite r) => .record (.suite r)
    | some (.spec r) =>
      if r.status?.isSome then .record (.spec r) else .malformed ⟨.unknownState r.state, line⟩

end StreamLine

end SpecExplorer
