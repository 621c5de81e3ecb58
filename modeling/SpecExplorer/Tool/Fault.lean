/-
# Faults

Why there is no outline, and why there is no run. Each fault is a cause; its text is in one place.
-/
import SpecExplorer.Coverage
import SpecExplorer.FilePath
import SpecExplorer.Tool.Ending

namespace SpecExplorer

/-- Why a file has no outline. -/
inductive OutlineFault where
  | toolNotFound (path : FilePath)
  /-- A tool was called and gave no answer; what it said is kept. -/
  | invocation (tool : String) (ending : ToolEnding) (said : String)
  | unreadable
  deriving DecidableEq, Repr

namespace OutlineFault

def message : OutlineFault → String
  | .toolNotFound path => "ginkgo executable not found: " ++ path.display
  | .invocation tool ending said => tool ++ " exited abnormally (" ++ ending.text ++ "): " ++ said
  | .unreadable => "could not decode outline output: unreadable JSON"

end OutlineFault

/-- Why a run did not happen. -/
inductive RunFault where
  | toolNotFound (path : FilePath)
  | spawnFailed (program : FilePath) (fault : SpawnFault)
  | coverage (fault : CoverageFault)
  deriving DecidableEq, Repr

namespace RunFault

def message : RunFault → String
  | .toolNotFound path => "ginkgo executable not found: " ++ path.display
  | .spawnFailed program fault =>
    "test runner could not be started: failed to spawn " ++ program.display ++ ": " ++
      fault.message
  | .coverage fault => "coverage report unavailable: " ++ fault.message

end RunFault

/-- The message for an executable that cannot be found. -/
def executableMessage (path : FilePath) : String := "executable not found: " ++ path.display

end SpecExplorer
