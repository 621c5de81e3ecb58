/-
# The stage of a rehearsal

A rehearsal is played in a directory of its own. It holds the files that the description names and,
where the description has a tool, a test tool called `ginkgo`. The tool is either a file with a
given text, or it follows a script that says for outlines, coverage and runs what it leaves, prints
and waits for and how it ends. Next to the tool on the disk there is a stand-in, which reads an
outline off the text of a file.
-/
import SpecExplorer.Outline.Sketch
import SpecExplorer.Tool.Machine

namespace SpecExplorer

namespace Stage

/-! ### The stand-in -/

/-- What follows some words at the start of a text. -/
def after? (words text : String) : Option String :=
  if words.isPrefixOf text then some (String.ofList (text.toList.drop words.length)) else none

/-- The spec that stands for a text that sketches nothing. -/
def plainSpec (name : String) (path : FilePath) (text : String) : OutlineNode :=
  .node ⟨.spec, name ++ "|" ++ path.display ++ "|" ++ text, "It", .zero, false, false, []⟩ []

/-- The outline that the stand-in reads off a text: a fault where the text names one, the roots
that it sketches, or else one spec that tells who was asked for what. -/
def standIn (name : String) (path : FilePath) (text : String) : Except OutlineFault Outline :=
  match after? "!notfound " text, after? "!invocation " text, after? "!decode " text with
  | some missing, _, _ => .error (.toolNotFound (.ofString missing))
  | _, some said, _ => .error (.invocation "fake" (.exited (.exited 1)) said)
  | _, _, some _ => .error .unreadable
  | none, none, none =>
    match Json.read? text with
    | some (.array items) => .ok (.ofSketches items)
    | _ => .ok ⟨[plainSpec name path text]⟩

/-! ### The tool -/

/-- Seconds with up to three places after the point, in milliseconds. -/
def millisOf (seconds : String) : Nat :=
  let whole := seconds.toList.takeWhile (·.isDigit)
  let places := ((seconds.toList.dropWhile (·.isDigit)).drop 1).takeWhile (·.isDigit)
  (whole ++ (places ++ ['0', '0', '0']).take 3).foldl
    (fun n c => n * 10 + (c.toNat - '0'.toNat)) 0

/-- A signal by its number or its name. -/
def signalOf? (name : String) : Option Nat :=
  match name.toNat? with
  | some number => some number
  | none => (signalNames.findIdx? (· == name)).map (· + 1)

def scriptPart (j : Json) : ScriptPart where
  report := j.textAt? "report"
  profile := j.textAt? "profile"
  stdout := j.textAt "stdout"
  stderr := j.textAt "stderr"
  millis := millisOf (j.textAt "sleep")
  signal := (j.textAt? "signal").bind signalOf?
  exit := j.countAt "exit"

def script (j : Json) : Script :=
  ⟨scriptPart (j.memberAt "outline"), scriptPart (j.memberAt "cover"),
    scriptPart (j.memberAt "run")⟩

/-- The bytes of a tool and what it is when it is started. -/
def toolOf (j : Json) : List UInt8 × Program :=
  match j.textAt? "raw" with
  | some text => (Text.toUtf8 text, .text)
  | none => ([], .script (script j))

/-! ### The disk -/

/-- The place that a path from the root names. -/
def placeOf (path : String) : DiskPlace :=
  ((Text.toUtf8 path).splitOnP (· == FilePath.slash)).filter (!·.isEmpty)

def fileOf (dir : String) : String × Json → DiskFile
  | (name, j) => ⟨placeOf (dir ++ "/" ++ name), Text.toUtf8 (j.string?.getD ""), none⟩

/-- The files that a description puts into a directory. -/
def filesOf (dir : String) (j : Json) : List DiskFile :=
  match j.memberAt "files" with
  | .object members => members.map (fileOf dir)
  | _ => []

/-- The tool that a description puts into a directory; a plain one cannot be started. -/
def toolsOf (dir : String) (j : Json) : List DiskFile :=
  match j.memberAt "tool" with
  | .object members =>
    let (bytes, program) := toolOf (.object members)
    [⟨placeOf (dir ++ "/ginkgo"), bytes, if j.textAt "mode" == "plain" then none else some program⟩]
  | _ => []

def disk (dir : String) (j : Json) : Disk :=
  ⟨toolsOf dir j ++ filesOf dir j, [placeOf dir], .ofString "/"⟩

/-- The machine of a description. -/
def machine (dir : String) (j : Json) (latency : Nat) : Machine := ⟨disk dir j, latency, standIn⟩

end Stage

end SpecExplorer
