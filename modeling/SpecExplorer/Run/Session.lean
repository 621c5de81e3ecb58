/-
# Sessions

A session follows one run over one tree from its start to its exit. It knows its scope by key,
since the file may be outlined anew while the run is under way, and it is handed the tree of the
moment with every event. The records of specs that share a name path are attributed to those specs
in source order, one after the other.
-/
import SpecExplorer.Run.Stream
import SpecExplorer.Tree.Run

namespace SpecExplorer

structure RunSession where
  scope : NodeKey
  run : RunId
  /-- The name path of every record that named specs in scope. -/
  seen : List (List String)
  summary : Option SuiteRecord
  /-- The lines that were no records, in order of arrival. -/
  output : List String
  /-- How many spec records with a known state came. -/
  records : Nat
  malformed : Nat
  finished : Bool
  deriving Repr

namespace RunSession

/-- Starts a run over the nodes at and under a key. -/
def start (t : TestTree) (scope : NodeKey) (run : RunId) :
    RunSession × TestTree × List NodeKey :=
  (⟨scope, run, [], none, [], 0, 0, false⟩, t.prepareToRun scope run)

/-- Whether a record is about the tree's file, as far as it says. The run of a package also reports
the specs of its other files. -/
def isOwnFile (t : TestTree) (r : SpecRecord) : Bool := r.fileName?.all (· == t.info.name)

/-- The specs in scope that a record may be about, in source order. -/
def candidates (s : RunSession) (t : TestTree) (r : SpecRecord) : List TestNode :=
  if isOwnFile t r then ((t.find? s.scope).map (·.specsNamed r.names)).getD [] else []

/-- Takes a spec record: it is counted, and if there are candidates for it, the next one of them
that no record was for yet gets the result, unless another run has prepared it since. -/
def applySpec (s : RunSession) (t : TestTree) (r : SpecRecord) (status : RunStatus) :
    RunSession × TestTree × List NodeKey :=
  let s := { s with records := s.records + 1 }
  match s.candidates t r with
  | [] => (s, t, [])
  | first :: others =>
    let nth := s.seen.count r.names
    let s := { s with seen := r.names :: s.seen }
    match (first :: others)[nth]? with
    | none => (s, t, [])
    | some n =>
      if n.isClaimedBy s.run then (s, t.applyResult n.key (r.result status)) else (s, t, [])

/-- Everything the run printed, where it printed anything. -/
def log? (s : RunSession) : Option String :=
  if s.output.isEmpty then none else some (String.intercalate "\n" s.output)

/-- Whether the scope itself could show the log: it belongs to the run and has a result without
output. -/
def takesLog (s : RunSession) (n : TestNode) : Bool :=
  n.isClaimedBy s.run && n.result.any (·.output.isNone)

/-- Shows the run's log at the scope, which has no output of its own. -/
def showLog (s : RunSession) (t : TestTree) (changed : List NodeKey) : TestTree × List NodeKey :=
  match s.log?, t.node? s.scope with
  | some log, some n =>
    if s.takesLog n then
      (t.modify s.scope fun n =>
          { n with result := n.result.map fun r => { r with output := some log } },
        if changed.contains s.scope then changed else changed ++ [s.scope])
    else (t, changed)
  | _, _ => (t, changed)

/-- Closes the run. Once closed it stays as it is. -/
def finish (s : RunSession) (t : TestTree) : RunSession × TestTree × List NodeKey :=
  if s.finished then (s, t, [])
  else
    let (t, changed) := t.finishRun s.scope s.run
    ({ s with finished := true }, s.showLog t changed)

/-- Gives the run up before it started: its nodes become idle. -/
def abort (s : RunSession) (t : TestTree) : RunSession × TestTree × List NodeKey :=
  ({ s with finished := true }, t.revertPending s.scope s.run)

/-- Takes one event and gives the nodes that changed. -/
def apply (s : RunSession) (t : TestTree) : RunEvent → RunSession × TestTree × List NodeKey
  | .started => (s, t.markRunning s.scope s.run)
  | .record (.spec r) =>
    match r.status? with
    | some status => s.applySpec t r status
    | none => (s, t, [])
  | .record (.suite r) => ({ s with summary := some r }, t, [])
  | .malformed _ => ({ s with malformed := s.malformed + 1 }, t, [])
  | .output line => ({ s with output := s.output ++ [line] }, t, [])
  | .exited _ _ => s.finish t

end RunSession

end SpecExplorer
