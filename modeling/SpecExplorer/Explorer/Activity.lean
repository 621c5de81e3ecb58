/-
# Activities

All that the explorer does over time, as one type: refreshes, runs, clicks, outlines of closed
files, coverage, and short answers. Every activity ends with an answer.
-/
import SpecExplorer.Explorer.RunNode
import SpecExplorer.View.Lens
import SpecExplorer.View.Symbol

namespace SpecExplorer

/-! ### Clicks -/

inductive ClickPhase where
  | start
  /-- A click that waits for a second one until `due`. -/
  | waiting (id due : Nat)
  | expanding
  | running (run : NodeRun)
  deriving Repr

/-- A click on an item of the tree under way. -/
structure ItemClick where
  target : ClickTarget
  phase : ClickPhase
  deriving Repr

namespace ItemClick

def ofTarget (target : ClickTarget) : ItemClick := ⟨target, .start⟩

def toPhase (c : ItemClick) (phase : ClickPhase) : ItemClick := { c with phase := phase }

/-- The change that a toggled node shows, `none` where there is nothing to toggle. -/
def expand (c : ItemClick) (e : Explorer) : Explorer × Option TreeChange :=
  match e.tree? c.target.uri with
  | none => (e, none)
  | some t =>
    match t.toggle c.target.key with
    | (_, none) => (e, none)
    | (t, some _) =>
      (e.setTree c.target.uri t,
        (t.find? c.target.key).map fun s => ⟨c.target.uri, [.ofTree s], [], []⟩)

/-- One turn of a click. Its answer is what the click did, `none` if it did nothing. -/
def turn (s : Surroundings) (e : Explorer) (c : ItemClick) :
    Turn ItemClick (Option ClickAction) :=
  match c.phase with
  | .start =>
    match e.clicks.press c.target with
    | (clicks, .double) =>
      ⟨{ e with clicks := clicks }, [],
        .go (c.toPhase (.running (.ofNode c.target.uri c.target.key)))⟩
    | (clicks, .first id) =>
      let due := s.now + e.settings.clickThreshold
      ⟨{ e with clicks := clicks }, [], .wait (.click id due) (c.toPhase (.waiting id due))⟩
  | .waiting id due =>
    if e.clicks.isDropped id then ⟨e, [], .done none⟩
    else if s.now < due then ⟨e, [], .wait (.click id due) c⟩
    else
      ⟨{ e with clicks := e.clicks.expire c.target id }, [],
        .wait .state (c.toPhase .expanding)⟩
  | .expanding =>
    let (e, change) := c.expand e
    ⟨e, NodeRun.tellChange change, .done (some .expand)⟩
  | .running run =>
    (run.turn s e).within (fun run => c.toPhase (.running run)) fun _ => .done (some .run)

end ItemClick

/-! ### Coverage -/

inductive CoveragePhase where
  | start
  | waiting (due : Nat) (result : Except RunFault CoverageReport)
  | offering (fault : RunFault) (path : FilePath)
  deriving Repr

/-- A run for coverage under way. -/
structure CoverageRun where
  uri : Uri
  phase : CoveragePhase
  deriving Repr

namespace CoverageRun

def ofDocument (uri : Uri) : CoverageRun := ⟨uri, .start⟩

/-- One turn of a run for coverage. Nobody is told of an overflow. -/
def turn (s : Surroundings) (e : Explorer) (c : CoverageRun) :
    Turn CoverageRun (Except RunFault CoverageReport) :=
  match c.phase with
  | .start =>
    let t := s.machine.coverage e.runner c.uri.filePath.packageDir
    let due := s.now + t.millis
    ⟨e, [.note t.notes], .wait (.time due) { c with phase := .waiting due t.value }⟩
  | .waiting due result =>
    if s.now < due then ⟨e, [], .wait (.time due) c⟩
    else match result with
      | .ok report =>
        match report.render with
        | .ok text => ⟨e, [.tell (.log .info text)], .done (.ok report)⟩
        | .error fault => ⟨e, [], .done (.error (.coverage fault))⟩
      | .error (.toolNotFound path) =>
        ⟨e, [], .wait .state { c with phase := .offering (.toolNotFound path) path }⟩
      | .error (.coverage .overflow) => ⟨e, [], .done (.error (.coverage .overflow))⟩
      | .error fault => ⟨e, NodeRun.faultEffects fault, .done (.error fault)⟩
  | .offering fault path =>
    let (e, effects) := e.offer path
    ⟨e, effects, .done (.error fault)⟩

end CoverageRun

/-! ### Trees on request -/

inductive TreeRequestPhase where
  | start
  | refreshing (refresh : Refresh)
  | answering
  | outlining (call : OutlineCall)
  deriving Repr

/-- A client's request for the tree of a file, which may be closed. -/
structure TreeRequest where
  uri : Uri
  phase : TreeRequestPhase
  deriving Repr

namespace TreeRequest

def ofDocument (uri : Uri) : TreeRequest := ⟨uri, .start⟩

def toPhase (r : TreeRequest) (phase : TreeRequestPhase) : TreeRequest := { r with phase := phase }

/-- The item of a file that is not open, from its outline. -/
def closedItem (r : TreeRequest) : OutlineAnswer → Option TreeItem
  | .ok made => some (.ofTree (TestTree.merge none made.outline r.uri.rootName).1)
  | .error _ => none

/-- One turn of a request for a tree. -/
def turn (s : Surroundings) (e : Explorer) (r : TreeRequest) :
    Turn TreeRequest (Option TreeItem) :=
  match r.phase with
  | .start =>
    if e.isOpen r.uri then
      if (e.tree? r.uri).isSome then ⟨e, [], .wait .state (r.toPhase .answering)⟩
      else ⟨e, [], .wait .state (r.toPhase (.refreshing (.ofTrigger r.uri .manual)))⟩
    else match s.machine.disk.read r.uri.filePath with
      | .error _ => ⟨e, [], .done none⟩
      | .ok (text, signature) =>
        ⟨e, [], .go (r.toPhase (.outlining (.start ⟨r.uri.filePath, text, signature⟩)))⟩
  | .refreshing refresh =>
    (refresh.turn s e).within (fun refresh => r.toPhase (.refreshing refresh)) fun _ =>
      .wait .state (r.toPhase .answering)
  | .answering => ⟨e, [], .done (e.item? r.uri)⟩
  | .outlining call =>
    (call.turn s e).within (fun call => r.toPhase (.outlining call)) fun answer =>
      .done (r.closedItem answer)

end TreeRequest

/-! ### All activities -/

/-- What an activity ends with. -/
inductive Answer where
  | nothing
  | flag (value : Bool)
  | action (action : Option ClickAction)
  | output (text : Option String)
  | outline (answer : OutlineAnswer)
  | coverage (result : Except RunFault CoverageReport)
  | item (item : Option TreeItem)
  deriving Repr

inductive Activity where
  | refresh (refresh : Refresh)
  | run (run : NodeRun)
  | click (click : ItemClick)
  | coverage (coverage : CoverageRun)
  | treeRequest (request : TreeRequest)
  | outline (call : OutlineCall)
  /-- Shows the output of a node. -/
  | showOutput (uri : Uri) (key : NodeKey)
  /-- Switches the lenses on or off. -/
  | toggleLenses
  /-- Tells the client to refresh its lenses, and answers with a flag. -/
  | relight (answer : Bool)
  /-- Waits until a time. -/
  | sleep (due : Nat)
  /-- A click that is only told apart, with its time limit. -/
  | press (target : ClickTarget) (threshold : Nat)
  | pressed (target : ClickTarget) (id due : Nat)
  /-- A ticket that is only waited for. -/
  | debounce (ticket due : Nat)
  deriving Repr

namespace Activity

/-- The captured output of a node. -/
def outputOf (e : Explorer) (uri : Uri) (key : NodeKey) : Option String := do
  let n ← (← e.tree? uri).node? key
  (← n.result).output

/-- A turn that ends the activity. -/
def answer (e : Explorer) (effects : List Effect) (a : Answer) : Turn Activity Answer :=
  ⟨e, effects, .done a⟩

/-- One turn of an activity. -/
def turn (s : Surroundings) (e : Explorer) : Activity → Turn Activity Answer
  | .refresh r => (r.turn s e).within .refresh fun changed => .done (.flag changed)
  | .run r => (r.turn s e).within .run fun started => .done (.flag started)
  | .click c => (c.turn s e).within .click fun action => .done (.action action)
  | .coverage c => (c.turn s e).within .coverage fun result => .done (.coverage result)
  | .treeRequest r => (r.turn s e).within .treeRequest fun item => .done (.item item)
  | .outline call => (call.turn s e).within .outline fun answer => .done (.outline answer)
  | .showOutput uri key =>
    match outputOf e uri key with
    | none => answer e [] (.output none)
    | some text => answer e [.tell (.log .info text)] (.output (some text))
  | .toggleLenses =>
    let enabled := !e.settings.lensesEnabled
    ⟨{ e with settings := { e.settings with lensesEnabled := enabled } }, [],
      .wait .state (.relight enabled)⟩
  | .relight flag => answer e e.relight (.flag flag)
  | .sleep due =>
    if s.now < due then ⟨e, [], .wait (.time due) (.sleep due)⟩ else answer e [] .nothing
  | .press target threshold =>
    match e.clicks.press target with
    | (clicks, .double) => answer { e with clicks := clicks } [] (.action (some .run))
    | (clicks, .first id) =>
      let due := s.now + threshold
      ⟨{ e with clicks := clicks }, [], .wait (.click id due) (.pressed target id due)⟩
  | .pressed target id due =>
    if e.clicks.isDropped id then answer e [] (.action none)
    else if s.now < due then ⟨e, [], .wait (.click id due) (.pressed target id due)⟩
    else answer { e with clicks := e.clicks.expire target id } [] (.action (some .expand))
  | .debounce ticket due =>
    match Refresh.passed? s e ticket due with
    | none => ⟨e, [], .wait (.ticket ticket due) (.debounce ticket due)⟩
    | some passed => answer e [] (.flag passed)

end Activity

end SpecExplorer
