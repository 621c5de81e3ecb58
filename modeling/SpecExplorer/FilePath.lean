/-
# File paths

A path is a byte string: a document address may decode to bytes that are no text. Its steps are the
parts between slashes. An empty part and a single dot say nothing, except that a dot that starts a
relative path is kept as a step; two dots are a step like any other and are not resolved. Two paths
are the same place when their routes agree, however they are written, and paths are looked up by
their routes. Parent and file name go by steps too, but the parent keeps the bytes as written.
-/
import SpecExplorer.Text.Utf8

namespace SpecExplorer

structure FilePath where
  bytes : List UInt8
  deriving DecidableEq, Repr

namespace FilePath

def ofString (s : String) : FilePath := ⟨Text.toUtf8 s⟩

/-- The path as it is shown. -/
def display (p : FilePath) : String := Text.fromUtf8Lossy p.bytes

def slash : UInt8 := 0x2F
def dot : UInt8 := 0x2E

/-- One step of a route. -/
inductive Step where
  | here
  | up
  | name (bytes : List UInt8)
  deriving DecidableEq, Hashable, Repr

/-- A path by its steps. -/
structure Route where
  absolute : Bool
  steps : List Step
  deriving DecidableEq, Hashable, Repr

/-- The parts between slashes, one more than there are slashes. -/
def parts : List UInt8 → List (List UInt8)
  | [] => [[]]
  | b :: rest =>
    if b = slash then [] :: parts rest
    else match parts rest with
      | part :: later => (b :: part) :: later
      | [] => [[b]]

def isVoid (part : List UInt8) : Bool := part = [] || part = [dot]

def step (part : List UInt8) : Step := if part = [dot, dot] then .up else .name part

def isAbsolute (p : FilePath) : Bool := p.bytes.head? = some slash

/-- A relative path that starts with a dot as its first part. -/
def startsHere (p : FilePath) : Bool := (parts p.bytes).head? = some [dot]

def route (p : FilePath) : Route where
  absolute := p.isAbsolute
  steps := (if p.startsHere then [.here] else []) ++
    ((parts p.bytes).filter (!isVoid ·)).map step

/-- Whether two paths name the same place. -/
def same (p q : FilePath) : Bool := p.route == q.route

/-- The last step, when it is a name. -/
def fileName? (p : FilePath) : Option FilePath :=
  match p.route.steps.getLast? with
  | some (.name bytes) => some ⟨bytes⟩
  | _ => none

/-! ### Parents

The bytes before the first step that can be dropped, a slash or a starting dot, stay where they
are. The rest is handled last byte first. -/

/-- How many bytes come before the parts that can be dropped. -/
def headLength (p : FilePath) : Nat := if p.isAbsolute || p.startsHere then 1 else 0

/-- Drops the last part with its slash. The parts are last first and each spelled backwards. -/
def dropPart (reversed : List UInt8) : List UInt8 := (reversed.dropWhile (· ≠ slash)).drop 1

/-- Drops parts that say nothing from the end. Each round drops a byte at least, so `fuel` up to
the length is enough. -/
def dropVoid : Nat → List UInt8 → List UInt8
  | 0, reversed => reversed
  | fuel + 1, reversed =>
    if reversed.isEmpty then []
    else if isVoid (reversed.takeWhile (· ≠ slash)) then dropVoid fuel (dropPart reversed)
    else reversed

/-- The path without its last step; a bare root and an empty path have none to drop. -/
def parent? (p : FilePath) : Option FilePath :=
  let before := p.bytes.take p.headLength
  let body := (p.bytes.drop p.headLength).reverse
  let body := dropVoid body.length body
  if body.isEmpty then if p.startsHere then some ⟨[]⟩ else none
  else
    let rest := dropPart body
    some ⟨before ++ (dropVoid rest.length rest).reverse⟩

/-- The directory that a test file belongs to, which is also where its package is run. -/
def packageDir (p : FilePath) : FilePath :=
  match p.parent? with
  | some dir => if dir.bytes.isEmpty then ⟨[dot]⟩ else dir
  | none => ⟨[dot]⟩

/-- The place of `q` as seen from the directory `p`. -/
def join (p q : FilePath) : FilePath :=
  if q.isAbsolute || p.bytes.isEmpty then q
  else if p.bytes.getLast? = some slash then ⟨p.bytes ++ q.bytes⟩
  else ⟨p.bytes ++ slash :: q.bytes⟩

instance : ToString FilePath := ⟨display⟩

example : (ofString "//a//b//").packageDir = ofString "//a" := by decide +kernel
example : (ofString "./a").packageDir = ofString "." := by decide +kernel
example : (ofString "/a/./b/").same (ofString "/a//b") = true := by decide +kernel

end FilePath

end SpecExplorer
