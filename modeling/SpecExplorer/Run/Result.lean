/-
# Results of a run

A node that a run has touched carries a result: its status, what it printed, and how long it took.
Passed, failed and skipped are final for a run. Times are whole nanoseconds without a bound, since
the time of a container is the sum over what lies below it.
-/

namespace SpecExplorer

inductive RunStatus where
  | pending
  | running
  | passed
  | failed
  | skipped
  deriving DecidableEq, Repr

namespace RunStatus

def isTerminal : RunStatus → Bool
  | .pending | .running => false
  | .passed | .failed | .skipped => true

def name : RunStatus → String
  | .pending => "pending"
  | .running => "running"
  | .passed => "passed"
  | .failed => "failed"
  | .skipped => "skipped"

def ofName? : String → Option RunStatus
  | "pending" => some .pending
  | "running" => some .running
  | "passed" => some .passed
  | "failed" => some .failed
  | "skipped" => some .skipped
  | _ => none

end RunStatus

structure RunResult where
  status : RunStatus
  output : Option String
  nanos : Option Nat
  deriving DecidableEq, Repr

namespace RunResult

/-- A result with a status alone. -/
def ofStatus (status : RunStatus) : RunResult := ⟨status, none, none⟩

/-- The whole milliseconds of a time in nanoseconds. -/
def millis (nanos : Nat) : Nat := nanos / 1000000

end RunResult

/-- The identity of one run. A node remembers the run that last prepared it. -/
abbrev RunId := Nat

end SpecExplorer
