/-
# A disk with some files

What the explorer can find on a machine: files at absolute places, and directories, which are those
that hold a file and those that are named besides. A path is followed step by step, so a step up
goes to the directory that was really entered, and nothing can be followed through a file.
-/
import SpecExplorer.FilePath
import SpecExplorer.Outline.Signature

namespace SpecExplorer

/-- What a call of the scripted test tool does, in this order: it writes its report and its
profile, prints, waits, and ends. -/
structure ScriptPart where
  report : Option String
  profile : Option String
  stdout : String
  stderr : String
  millis : Nat
  /-- The signal that it kills itself with. -/
  signal : Option Nat
  exit : Nat
  deriving DecidableEq, Repr

/-- A test tool that does one thing for outlines, one for coverage and one for runs. -/
structure Script where
  outline : ScriptPart
  cover : ScriptPart
  run : ScriptPart
  deriving DecidableEq, Repr

/-- What a file is when it is started. -/
inductive Program where
  | script (script : Script)
  /-- A file that only has its text to say how it is started. -/
  | text
  deriving DecidableEq, Repr

/-- The names from the root of the disk down. -/
abbrev DiskPlace := List (List UInt8)

structure DiskFile where
  place : DiskPlace
  bytes : List UInt8
  /-- What the file is when it is started, `none` if it may not be. -/
  program : Option Program
  deriving DecidableEq, Repr

/-- Whether the file is the scripted tool, which notes down every call. -/
def DiskFile.keepsNotes (f : DiskFile) : Bool :=
  match f.program with
  | some (.script _) => true
  | _ => false

structure Disk where
  files : List DiskFile
  /-- Directories besides those that hold a file. -/
  directories : List DiskPlace
  /-- Where relative paths start. -/
  here : FilePath
  deriving Repr

/-- What a path leads to. -/
inductive DiskEntry where
  | file (file : DiskFile)
  | directory (place : DiskPlace)
  deriving DecidableEq, Repr

namespace Disk

def file? (d : Disk) (place : DiskPlace) : Option DiskFile := d.files.find? (·.place == place)

def isDirectory (d : Disk) (place : DiskPlace) : Bool :=
  d.directories.any place.isPrefixOf ||
    d.files.any fun f => place.isPrefixOf f.place && f.place.length != place.length

/-- Follows the parts of a path from a directory. -/
def follow (d : Disk) (base : DiskPlace) : List (List UInt8) → Except ReadFault DiskEntry
  | [] => .ok (.directory base)
  | part :: rest =>
    if FilePath.isVoid part then d.follow base rest
    else if part = [FilePath.dot, FilePath.dot] then d.follow base.dropLast rest
    else
      let place := base ++ [part]
      match d.file? place with
      | some f => if rest.isEmpty then .ok (.file f) else .error .notADirectory
      | none => if d.isDirectory place then d.follow place rest else .error .notFound

/-- What a path leads to. -/
def entry (d : Disk) (p : FilePath) : Except ReadFault DiskEntry :=
  d.follow [] (FilePath.parts (d.here.join p).bytes)

/-- The text of a file with its signature. Every file was last changed at the same time. -/
def read (d : Disk) (p : FilePath) : Except ReadFault (String × Signature) :=
  match d.entry p with
  | .ok (.file f) => Signature.ofDisk f.bytes 0
  | .ok (.directory _) => .error .isADirectory
  | .error f => .error f

end Disk

end SpecExplorer
