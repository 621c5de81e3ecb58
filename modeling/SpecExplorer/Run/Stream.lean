/-
# The events of a run

A run reports what happens in order: it starts, lines arrive on its two output channels, and it
exits. Bytes are split at line feeds first and decoded line by line after that, so a line that is
no text shows replacement characters and harms no other line.
-/
import SpecExplorer.Run.Record
import SpecExplorer.Text.Line

namespace SpecExplorer

inductive RunEvent where
  | started
  | record (record : RunRecord)
  | malformed (fault : MalformedRecord)
  | output (line : String)
  | exited (success : Bool) (code : Option Int)
  deriving DecidableEq, Repr

namespace RunEvent

/-- The lines of a byte stream as they are shown. -/
def linesOf (bytes : List UInt8) : List String :=
  (Text.linesBy 0x0A 0x0D bytes).map Text.fromUtf8Lossy

def ofLine (line : String) : RunEvent :=
  match StreamLine.decode line with
  | .record r => .record r
  | .malformed fault => .malformed fault
  | .text line => .output line

/-- The events on the standard output of a run. -/
def ofStdout (bytes : List UInt8) : List RunEvent := (linesOf bytes).map ofLine

/-- The events on the error output of a run. -/
def ofStderr (bytes : List UInt8) : List RunEvent := (linesOf bytes).map .output

def isRecord : RunEvent → Bool
  | .record _ => true
  | _ => false

/-- How many records there are among events. -/
def countRecords (events : List RunEvent) : Nat := events.countP isRecord

end RunEvent

end SpecExplorer
