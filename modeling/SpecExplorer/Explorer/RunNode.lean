/-
# Running a node

A run makes sure that the document has a tree, prepares the node, starts the tool, and takes its
events one after the other until it has exited. If the tool cannot be started, the node goes back
to where it was and the user is told why.
-/
import SpecExplorer.Explorer.Refresh
import SpecExplorer.Run.Focus
import SpecExplorer.Run.Session

namespace SpecExplorer

/-- Events of a run, each with the time at which it arrives. -/
abbrev Arrivals := List (Nat × RunEvent)

inductive RunPhase where
  | start
  | refreshing (refresh : Refresh)
  | preparing
  | launching (session : RunSession) (focus : Option Focus) (runner : Runner)
  | aborting (session : RunSession) (fault : RunFault)
  | offering (path : FilePath)
  | listening (session : RunSession) (arrivals : Arrivals)
  | finishing (session : RunSession)
  | relighting
  deriving Repr

/-- A run under way. -/
structure NodeRun where
  uri : Uri
  key : NodeKey
  phase : RunPhase
  deriving Repr

namespace NodeRun

def ofNode (uri : Uri) (key : NodeKey) : NodeRun := ⟨uri, key, .start⟩

def toPhase (r : NodeRun) (phase : RunPhase) : NodeRun := { r with phase := phase }

/-- Hands the tree of the document to a session. Where there is none, the session stays as it
is. -/
def withTree (r : NodeRun) (e : Explorer) (session : RunSession)
    (f : TestTree → RunSession × TestTree × List NodeKey) :
    Explorer × RunSession × Option TreeChange :=
  match e.tree? r.uri with
  | none => (e, session, none)
  | some t =>
    let (session, t, changed) := f t
    (e.setTree r.uri t, session, some (.ofStatuses r.uri t changed))

/-- Tells the client of a change. -/
def tellChange (change : Option TreeChange) : List Effect :=
  (change.map fun c => Effect.tell (.treeChanged c)).toList

/-- Tells the client of a change that is not empty. -/
def tellNonEmpty (change : Option TreeChange) : List Effect :=
  tellChange (change.filter (!·.isEmpty))

/-- What the user is told of a run that did not start, unless it is for a missing tool. -/
def faultEffects (fault : RunFault) : List Effect :=
  [.tell (.showMessage .error fault.message)]

/-- One run less is under way. -/
def runEnded (e : Explorer) : Explorer := { e with runsInFlight := e.runsInFlight - 1 }

/-- The counts that a suite closes with. -/
def summaryText (s : SuiteRecord) : String :=
  s!"Ginkgo: {s.passed} passed, {s.failed} failed, {s.skipped} skipped"

/-- A line of output also goes to the output panel. -/
def outputEffects : RunEvent → List Effect
  | .output line => [.tell (.log .log line)]
  | _ => []

/-- When the events of a call arrive: what is printed as soon as the tool is up, and the rest when
it has ended. -/
def arrivals (s : Surroundings) (o : Outcome) : Arrivals :=
  let up := s.now + s.machine.latency
  ((.started :: Machine.printedEvents o).map fun event => (up, event)) ++
    (Machine.closingEvents o).map fun event => (s.now + o.millis, event)

/-- Waits for the next event, or for the state once all have come. -/
def nextArrival (r : NodeRun) (session : RunSession) : Arrivals → Next NodeRun Bool
  | [] => .wait .state (r.toPhase (.finishing session))
  | (due, event) :: rest => .wait (.time due) (r.toPhase (.listening session ((due, event) :: rest)))

/-- Prepares the node for a run. -/
def prepare (r : NodeRun) (e : Explorer) : Turn NodeRun Bool :=
  match e.tree? r.uri with
  | none => ⟨e, [], .done false⟩
  | some t =>
    match t.node? r.key with
    | none => ⟨e, [], .done false⟩
    | some n =>
      let (session, t, changed) := RunSession.start t r.key e.nextRun
      let e := { e.setTree r.uri t with
        nextRun := e.nextRun + 1
        runsInFlight := e.runsInFlight + 1 }
      ⟨e, [.tell (.treeChanged (.ofStatuses r.uri t changed))],
        .go (r.toPhase (.launching session (Focus.ofNode? n.key n.kind) e.runner))⟩

/-- One turn of a run. Its answer says whether the tool was started. -/
def turn (s : Surroundings) (e : Explorer) (r : NodeRun) : Turn NodeRun Bool :=
  match r.phase with
  | .start =>
    if (e.tree? r.uri).isSome then ⟨e, [], .wait .state (r.toPhase .preparing)⟩
    else ⟨e, [], .wait .state (r.toPhase (.refreshing (.ofTrigger r.uri .manual)))⟩
  | .refreshing refresh =>
    (refresh.turn s e).within (fun refresh => r.toPhase (.refreshing refresh)) fun _ =>
      .wait .state (r.toPhase .preparing)
  | .preparing => r.prepare e
  | .launching session focus runner =>
    match s.machine.run runner ⟨r.uri.filePath.packageDir, focus.map (·.expression)⟩ with
    | .error fault => ⟨e, [], .wait .state (r.toPhase (.aborting session fault))⟩
    | .ok o => ⟨e, [.note o.notes], r.nextArrival session (arrivals s o)⟩
  | .aborting session fault =>
    let (e, _, change) := r.withTree (runEnded e) session session.abort
    match fault with
    | .toolNotFound path =>
      ⟨e, tellChange change, .wait .state (r.toPhase (.offering path))⟩
    | _ => ⟨e, tellChange change ++ faultEffects fault, .done false⟩
  | .offering path =>
    let (e, effects) := e.offer path
    ⟨e, effects, .done false⟩
  | .listening session [] => ⟨e, [], .wait .state (r.toPhase (.finishing session))⟩
  | .listening session ((due, event) :: rest) =>
    if s.now < due then ⟨e, [], .wait (.time due) r⟩
    else
      let (e, session, change) := r.withTree e session (session.apply · event)
      ⟨e, outputEffects event ++ tellNonEmpty change, r.nextArrival session rest⟩
  | .finishing session =>
    let (e, session, change) := r.withTree (runEnded e) session session.finish
    let summary := session.summary.map fun suite => Effect.tell (.log .info (summaryText suite))
    ⟨e, tellNonEmpty change ++ summary.toList, .wait .state (r.toPhase .relighting)⟩
  | .relighting => ⟨e, e.relight, .done true⟩

end NodeRun

end SpecExplorer
