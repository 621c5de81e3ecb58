/-
# How the test tool ends

A program that was started exits with a code or is killed by a signal. One that cannot be started
at all fails with a message of the system.
-/

namespace SpecExplorer

/-- Why a program could not be started. -/
inductive SpawnFault where
  | noSuchFile
  | permissionDenied
  | execFormat
  | notADirectory
  deriving DecidableEq, Repr

namespace SpawnFault

def message : SpawnFault → String
  | .noSuchFile => "No such file or directory (os error 2)"
  | .permissionDenied => "Permission denied (os error 13)"
  | .execFormat => "Exec format error (os error 8)"
  | .notADirectory => "Not a directory (os error 20)"

end SpawnFault

/-- The names of the signals by their numbers, from one. -/
def signalNames : List String :=
  ["HUP", "INT", "QUIT", "ILL", "TRAP", "ABRT", "BUS", "FPE", "KILL", "USR1", "SEGV", "USR2",
    "PIPE", "ALRM", "TERM", "STKFLT", "CHLD", "CONT", "STOP", "TSTP", "TTIN", "TTOU", "URG",
    "XCPU", "XFSZ", "VTALRM", "PROF", "WINCH", "IO", "PWR", "SYS"]

/-- The state in which a program ended. -/
inductive ExitStatus where
  | exited (code : Nat)
  | killed (signal : Nat)
  deriving DecidableEq, Repr

namespace ExitStatus

def success : ExitStatus → Bool
  | .exited code => code == 0
  | .killed _ => false

/-- The exit code; a killed program has none. -/
def code? : ExitStatus → Option Nat
  | .exited code => some code
  | .killed _ => none

def text : ExitStatus → String
  | .exited code => s!"exit status: {code}"
  | .killed signal =>
    match signalNames[signal - 1]? with
    | some name => s!"signal: {signal} (SIG{name})"
    | none => s!"signal: {signal}"

end ExitStatus

/-- Digits after a point, without the zeros at their end. -/
def fractionText (millis : Nat) : String :=
  let digits := Nat.toDigits 10 (1000 + millis % 1000)
  let kept := ((digits.drop 1).reverse.dropWhile (· = '0')).reverse
  if kept.isEmpty then "" else String.ofList ('.' :: kept)

/-- A span of milliseconds in its largest unit up to seconds. -/
def spanText (millis : Nat) : String :=
  if millis = 0 then "0ns"
  else if millis < 1000 then s!"{millis}ms"
  else toString (millis / 1000) ++ fractionText millis ++ "s"

example : (spanText 250, spanText 1500, spanText 30000) = ("250ms", "1.5s", "30s") := by
  decide +kernel

/-- Why a call of the tool gave no answer. -/
inductive ToolEnding where
  | exited (status : ExitStatus)
  | timedOut (millis : Nat)
  | spawnFailed
  deriving DecidableEq, Repr

namespace ToolEnding

def text : ToolEnding → String
  | .exited status => status.text
  | .timedOut millis => "timed out after " ++ spanText millis
  | .spawnFailed => "spawn failed"

end ToolEnding

end SpecExplorer
