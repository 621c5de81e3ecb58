/-
# Command lines of the test tool

What the tool is called with: to outline a text, to run the specs of a package, and to run them for
a coverage profile. A run leaves its report in a directory of its own.
-/
import SpecExplorer.FilePath

namespace SpecExplorer

/-- What to run: the package of a directory, perhaps narrowed by a focus expression. -/
structure RunRequest where
  packageDir : FilePath
  focus : Option String
  deriving DecidableEq, Repr

/-- The tool that runs specs, with the arguments that every run gets. -/
structure Runner where
  toolPath : FilePath
  extraArgs : List String
  deriving DecidableEq, Repr

/-- The name of a run's report. -/
def reportName : String := "report.json"

/-- The name of a coverage profile. -/
def profileName : String := "cover.out"

/-- The arguments for an outline of the standard input. -/
def outlineArgs : List String := ["outline", "--format=json", "-"]

namespace Runner

/-- The arguments of a run. The user's own come before the package, so that they may take back
what stands before them. -/
def args (r : Runner) (request : RunRequest) (reportDir : String) : List String :=
  (request.focus.map ("-focus=" ++ ·)).toList ++
    ["-json-report=" ++ reportName, "-output-dir=" ++ reportDir] ++
    r.extraArgs ++ [request.packageDir.display]

/-- The arguments of a run for coverage. -/
def coverageArgs (packageDir : FilePath) (outputDir : String) : List String :=
  ["-cover", "-coverprofile=" ++ profileName, "-output-dir=" ++ outputDir, packageDir.display]

end Runner

end SpecExplorer
