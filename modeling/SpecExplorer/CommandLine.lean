/-
# The command line

The first argument that asks for the version or for help settles what is done, and so does the
first unknown one before it. Otherwise the program serves if it was told to, and without arguments
it shows its usage.
-/
import SpecExplorer.Server.Command
import SpecExplorer.Server.Reply
import SpecExplorer.Text.Tenths

namespace SpecExplorer

/-- What the program is asked to do. -/
inductive ProgramMode where
  | serve
  | version
  | usage
  deriving DecidableEq, Repr

/-- What a run of the program leaves, apart from serving. -/
structure Printout where
  code : UInt8
  stdout : String
  stderr : String
  deriving DecidableEq, Repr

namespace CommandLine

/-- Reads the arguments from `mode` on; the error is the unknown argument. -/
def readFrom (mode : ProgramMode) : List String → Except String ProgramMode
  | [] => .ok mode
  | "--stdio" :: rest => readFrom .serve rest
  | "--version" :: _ => .ok .version
  | "--help" :: _ => .ok .usage
  | unknown :: _ => .error unknown

/-- What the arguments ask for. -/
def read (args : List String) : Except String ProgramMode := readFrom .usage args

/-- A name and what it stands for, in two columns. -/
def entry (name text : String) : String :=
  Text.padRight 28 name ++ " " ++ text

def versionLine : String := ServerName.name ++ " " ++ ServerName.version

/-- The usage, line by line. -/
def usageLines : List String := [
  versionLine ++ ", a language server that outlines and runs Ginkgo specs.",
  "",
  "Open a *_test.go file in an editor connected over stdio and its Describe,",
  "Context and It blocks are published as a tree (" ++ ServerName.treeMethod ++ "), with a run",
  "lens above each one. Runs invoke the ginkgo CLI on the file's package and",
  "report pass/fail status back into the tree.",
  "",
  "Usage: " ++ ServerName.name ++ " [OPTIONS]",
  "",
  "Available options:",
  "",
  entry "--stdio" "Start the LSP server using stdio transport",
  entry "--version" "Print the version",
  entry "--help" "Print this help message",
  "",
  "Commands (workspace/executeCommand):",
  "",
  entry Command.runNodeName "Run one container or spec by key",
  entry Command.runAllName "Run every spec of a file",
  entry Command.showOutputName "Show the captured output of a node",
  entry Command.coverageName "Run the package with coverage and report it",
  entry Command.refreshName "Re-outline a file now",
  "",
  "Environment:",
  "",
  entry "RUST_LOG" "Log filter (env_logger syntax), written to stderr",
  entry "GINKGO_LS_PERF" "Log timings of outline, refresh and run steps"]

def usage : String := String.join (usageLines.map (· ++ "\n"))

/-- What a run with these arguments prints; a server that hears nothing prints nothing. -/
def printout (args : List String) : Printout :=
  match read args with
  | .ok .serve => ⟨0, "", ""⟩
  | .ok .version => ⟨0, versionLine ++ "\n", ""⟩
  | .ok .usage => ⟨0, usage, ""⟩
  | .error unknown => ⟨1, "", "Error: Unknown argument: '" ++ unknown ++ "' (see --help)\n"⟩

end CommandLine

end SpecExplorer
