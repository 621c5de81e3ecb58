/-
# Coverage profiles

A profile is a header line with its mode and one line per block: the file, the extent of the block,
how many statements it has, and how often it ran. Several test binaries may list the same block;
such lines are one block, with the statements of the first and the highest count. Totals are 64-bit
words; whatever needs one that does not fit breaks off.
-/
import SpecExplorer.Text.Blank
import SpecExplorer.Text.Line
import SpecExplorer.Text.Tenths
import SpecExplorer.Text.Word

namespace SpecExplorer

/-- A block of statements and how often it ran. -/
structure CoverBlock where
  file : String
  extent : String
  statements : UInt64
  count : Nat
  deriving DecidableEq, Repr

/-- The statements of a file and how many of them ran. -/
structure FileCoverage where
  file : String
  statements : UInt64
  covered : UInt64
  deriving DecidableEq, Repr

structure CoverageReport where
  mode : String
  /-- In the order of their names. -/
  files : List FileCoverage
  deriving DecidableEq, Repr

/-- Why there is no coverage report, or nothing to show of it. -/
inductive CoverageFault where
  | noHeader
  | unreadableLine (line : String)
  /-- The run left no profile, and this is what it said. -/
  | noProfile (said : String)
  /-- Statements add up to more than a word holds. The work breaks off and says nothing. -/
  | overflow
  deriving DecidableEq, Repr

namespace CoverageFault

def message : CoverageFault → String
  | .noHeader => "profile is missing its mode header"
  | .unreadableLine line => "unreadable profile line: " ++ line
  | .noProfile said => "no coverage profile was written: " ++ said
  | .overflow => ""

end CoverageFault

/-! ### Sums -/

/-- A number as a word, if it fits into one. -/
def wordOf (n : Nat) : Except CoverageFault UInt64 :=
  if n < Width.count 64 then .ok (.ofNat n) else .error .overflow

def addWords (a b : UInt64) : Except CoverageFault UInt64 := wordOf (a.toNat + b.toNat)

/-- The sum of some words, which are added one after the other. -/
def wordSum (words : List UInt64) : Except CoverageFault UInt64 := words.foldlM addWords 0

/-! ### Lines -/

/-- What comes before and after the last occurrence of a character. -/
def splitLast (c : Char) (cs : List Char) : Option (List Char × List Char) :=
  let back := cs.reverse
  match back.dropWhile (· ≠ c) with
  | [] => none
  | _ :: before => some (before.reverse, (back.takeWhile (· ≠ c)).reverse)

namespace CoverBlock

/-- A line such as `pkg/file.go:10.2,12.16 3 1`, cut from the right. -/
def ofLine? (line : String) : Option CoverBlock := do
  let (rest, count) ← splitLast ' ' (Text.trim line).toList
  let (location, statements) ← splitLast ' ' rest
  let (file, extent) ← splitLast ':' location
  some {
    file := String.ofList file
    extent := String.ofList extent
    statements := (← Text.word? statements).toUInt64
    count := ← Text.word? count }

/-- Whether two lines are about one block. -/
def sameBlock (a b : CoverBlock) : Bool := a.file == b.file && a.extent == b.extent

/-- Adds a line to blocks that are all different. -/
def addTo (b : CoverBlock) : List CoverBlock → List CoverBlock
  | [] => [b]
  | a :: rest =>
    if a.sameBlock b then { a with count := max a.count b.count } :: rest
    else a :: addTo b rest

/-- The different blocks among lines, in the order in which they first appear. -/
def merge (lines : List CoverBlock) : List CoverBlock :=
  lines.foldl (fun blocks b => b.addTo blocks) []

/-- The statements of some blocks. -/
def total (blocks : List CoverBlock) : Except CoverageFault UInt64 :=
  wordSum (blocks.map (·.statements))

end CoverBlock

/-! ### Reports -/

/-- The share of covered statements in percent, nothing for no statements. -/
def percent (covered statements : UInt64) : Float :=
  if statements = 0 then 0.0 else covered.toFloat * 100.0 / statements.toFloat

namespace FileCoverage

def percent (f : FileCoverage) : Float := SpecExplorer.percent f.covered f.statements

/-- The coverage of one file among blocks that are all different. -/
def ofBlocks (blocks : List CoverBlock) (file : String) : Except CoverageFault FileCoverage := do
  let own := blocks.filter (·.file == file)
  let statements ← CoverBlock.total own
  let covered ← CoverBlock.total (own.filter (0 < ·.count))
  return ⟨file, statements, covered⟩

end FileCoverage

namespace CoverageReport

def statements (r : CoverageReport) : Except CoverageFault UInt64 :=
  wordSum (r.files.map (·.statements))

def covered (r : CoverageReport) : Except CoverageFault UInt64 := wordSum (r.files.map (·.covered))

def percent (r : CoverageReport) : Except CoverageFault Float :=
  return SpecExplorer.percent (← r.covered) (← r.statements)

/-- The names of the files in order, each once. -/
def fileNames (blocks : List CoverBlock) : List String :=
  ((blocks.map (·.file)).eraseDups).mergeSort fun a b => !(b < a)

def ofBlocks (mode : String) (lines : List CoverBlock) : Except CoverageFault CoverageReport := do
  let blocks := CoverBlock.merge lines
  return ⟨mode, ← (fileNames blocks).mapM (FileCoverage.ofBlocks blocks)⟩

/-- One line of the table, a name and a percentage. -/
def row (width : Nat) (name : String) (share : Float) : String :=
  Text.padRight width name ++ "  " ++ Text.padLeft 6 (Text.oneDecimal share) ++ "%\n"

/-- The width of the first column: the most bytes that a name takes. -/
def nameWidth (r : CoverageReport) : Nat :=
  (r.files.map (·.file.utf8ByteSize)).foldl max "total".utf8ByteSize

/-- The report as a table, one line per file and one for the total. -/
def render (r : CoverageReport) : Except CoverageFault String := do
  let share ← r.percent
  return String.join (r.files.map fun f => row r.nameWidth f.file f.percent) ++
    row r.nameWidth "total" share

/-- The mode that a header line states. -/
def modeOf? (line : String) : Option String :=
  let cs := (Text.trim line).toList
  if "mode:".toList.isPrefixOf cs then some (Text.trim (String.ofList (cs.drop 5))) else none

/-- The block of a line, or the line as a fault. -/
def blockOf (line : String) : Except CoverageFault CoverBlock :=
  match CoverBlock.ofLine? line with
  | some b => .ok b
  | none => .error (.unreadableLine line)

/-- Reads a profile; blank lines do not count. -/
def parse (text : String) : Except CoverageFault CoverageReport :=
  match (Text.lines text).filter fun line => !(Text.trim line).isEmpty with
  | [] => .error .noHeader
  | header :: lines =>
    match modeOf? header with
    | none => .error .noHeader
    | some mode => lines.mapM blockOf >>= ofBlocks mode

end CoverageReport

end SpecExplorer
