/-
# Reports

At the end of a run the tool leaves a report: a list of suites, each with the reports of its nodes.
A report is gone over node by node. The report of a spec becomes a record and is counted by its
status, and each suite closes with a record that holds the counts. The report of any other node is
kept only for its failure, which becomes a line of output.
-/
import SpecExplorer.Run.Record
import SpecExplorer.Text.Line
import SpecExplorer.Width

namespace SpecExplorer

/-- What a report says about one node of a suite. -/
structure NodeReport where
  hierarchy : List String
  text : String
  /-- The function that declared the node. -/
  nodeType : String
  /-- The path of the file, empty when it is not known. -/
  file : String
  state : String
  runTime : Option Int
  stdOutErr : String
  writerOutput : String
  /-- The message of a failure, empty when there is none. -/
  failure : String
  deriving DecidableEq, Repr

structure SuiteReport where
  description : String
  succeeded : Bool
  runTime : Option Int
  nodes : List NodeReport
  deriving DecidableEq, Repr

/-- A run time in nanoseconds; a negative one is taken as zero. -/
def nanosOf (runTime : Int) : Nat := runTime.toNat

/-- The text, if there is any. -/
def nonEmpty? (s : String) : Option String := if s.isEmpty then none else some s

namespace NodeReport

/-- Specs are the nodes declared as `It`. -/
def isSpec (n : NodeReport) : Bool := n.nodeType == "It"

/-- What the node printed on the two channels of a suite. -/
def output (n : NodeReport) : Option String :=
  match nonEmpty? n.stdOutErr, nonEmpty? n.writerOutput with
  | some streams, some writer => some (Text.trimEnd streams ++ "\n" ++ writer)
  | some streams, none => some streams
  | none, writer => writer

def record (n : NodeReport) : SpecRecord where
  hierarchy := n.hierarchy
  leaf := n.text
  state := n.state
  output := n.output
  failure := nonEmpty? n.failure
  runTime := n.runTime.map nanosOf
  file := nonEmpty? n.file

/-- The line that a failure outside of specs leaves. -/
def failureLine? (n : NodeReport) : Option String :=
  (nonEmpty? n.failure).map fun message => "[" ++ n.nodeType ++ "] " ++ message

end NodeReport

/-- What a report gives: records in order, and lines of output. -/
structure DecodedReport where
  records : List RunRecord
  output : List String
  deriving DecidableEq, Repr

namespace SuiteRecord

/-- One more. The counts of a suite are numbers of 32 bits. -/
def countUp (n : Nat) : Nat := (n + 1) % Width.count 32

/-- Counts a spec by the status that it ended in. A spec without one is not counted. -/
def tally (s : SuiteRecord) : Option RunStatus → SuiteRecord
  | some .passed => { s with passed := countUp s.passed }
  | some .failed => { s with failed := countUp s.failed }
  | some .skipped => { s with skipped := countUp s.skipped }
  | some .pending | some .running | none => s

end SuiteRecord

/-- The record of a suite before its specs are counted. -/
def SuiteReport.opening (s : SuiteReport) : SuiteRecord where
  description := s.description
  success := s.succeeded
  passed := 0
  failed := 0
  skipped := 0
  runTime := s.runTime.map nanosOf

namespace DecodedReport

/-- Goes on to the report of a node, with the record of the suite that it is in. -/
def addNode (d : DecodedReport × SuiteRecord) (n : NodeReport) : DecodedReport × SuiteRecord :=
  if n.isSpec then
    ({ d.1 with records := d.1.records ++ [.spec n.record] }, d.2.tally n.record.status?)
  else ({ d.1 with output := d.1.output ++ n.failureLine?.toList }, d.2)

/-- Goes on to a suite: its nodes in order, and then its own record. -/
def addSuite (d : DecodedReport) (s : SuiteReport) : DecodedReport :=
  let (d, summary) := s.nodes.foldl addNode (d, s.opening)
  { d with records := d.records ++ [.suite summary] }

/-- Goes over suites in order. -/
def ofSuites (suites : List SuiteReport) : DecodedReport := suites.foldl addSuite ⟨[], []⟩

end DecodedReport

/-! ### Reading -/

namespace Json.Reader

/-- A record of one text that may be missing, and then is empty. -/
def textMember (name : String) : Reader String := fun depth r => do
  let fields ← Fields.read [name] depth r
  fields.withDefault name "" text

end Json.Reader

namespace NodeReport

def fieldNames : List String :=
  ["ContainerHierarchyTexts", "LeafNodeText", "LeafNodeType", "LeafNodeLocation", "State",
    "RunTime", "CapturedStdOutErr", "CapturedGinkgoWriterOutput", "Failure"]

def reader : Json.Reader NodeReport := fun depth r => do
  let fields ← Json.Fields.read fieldNames depth r
  let text := Json.Reader.text
  some {
    hierarchy := (← fields.optional "ContainerHierarchyTexts" (Json.Reader.listOf text)).getD []
    text := ← fields.withDefault "LeafNodeText" "" text
    nodeType := ← fields.withDefault "LeafNodeType" "" text
    file := (← fields.optional "LeafNodeLocation" (Json.Reader.textMember "FileName")).getD ""
    state := ← fields.required "State" text
    runTime := ← fields.optional "RunTime" Json.Reader.signedWord
    stdOutErr := ← fields.withDefault "CapturedStdOutErr" "" text
    writerOutput := ← fields.withDefault "CapturedGinkgoWriterOutput" "" text
    failure := (← fields.optional "Failure" (Json.Reader.textMember "Message")).getD "" }

end NodeReport

namespace SuiteReport

def fieldNames : List String :=
  ["SuiteDescription", "SuiteSucceeded", "RunTime", "SpecReports"]

def reader : Json.Reader SuiteReport := fun depth r => do
  let fields ← Json.Fields.read fieldNames depth r
  some {
    description := ← fields.withDefault "SuiteDescription" "" Json.Reader.text
    succeeded := ← fields.withDefault "SuiteSucceeded" false Json.Reader.flag
    runTime := ← fields.optional "RunTime" Json.Reader.signedWord
    nodes :=
      (← fields.optional "SpecReports" (Json.Reader.listOf NodeReport.reader)).getD [] }

/-- The suites of a whole report. -/
def readAll? (text : String) : Option (List SuiteReport) := do
  Json.Reader.listOf reader Json.maxDepth (← Json.Raw.read? text)

end SuiteReport

namespace DecodedReport

/-- Reads a report. A text that is none is told by its first line. -/
def decode (text : String) : Except MalformedRecord DecodedReport :=
  match SuiteReport.readAll? text with
  | some suites => .ok (ofSuites suites)
  | none => .error ⟨.unreadableReport, (Text.lines text).head?.getD ""⟩

end DecodedReport

end SpecExplorer
