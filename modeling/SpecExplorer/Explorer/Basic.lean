/-
# The explorer's state

What the explorer holds between events: the settings in force, the outline cache, the open
documents with their trees, the tickets of refreshes, the clicks that wait, and what the client can
do and was told already.
-/
import SpecExplorer.Explorer.Clicks
import SpecExplorer.Explorer.Tickets
import SpecExplorer.Outline.Cache
import SpecExplorer.Run.Command
import SpecExplorer.Settings
import SpecExplorer.View.Change

namespace SpecExplorer

/-- An open document. -/
structure Document where
  text : String
  version : Option Int
  /-- The tree of the last outline, `none` before the first. -/
  tree : Option TestTree
  deriving Repr

/-- How loud a message is. -/
inductive MessageLevel where
  | error
  | warning
  | info
  | log
  deriving DecidableEq, Repr

namespace MessageLevel

/-- The number that stands for a level. -/
def code : MessageLevel → Nat
  | .error => 1
  | .warning => 2
  | .info => 3
  | .log => 4

end MessageLevel

/-- What the client is sent. -/
inductive ClientMessage where
  | treeChanged (change : TreeChange)
  /-- A line for the output panel. -/
  | log (level : MessageLevel) (text : String)
  /-- A message to the user. -/
  | showMessage (level : MessageLevel) (text : String)
  /-- A request to ask for the lenses anew. -/
  | refreshLenses
  deriving Repr

structure Explorer where
  settings : Settings
  cache : OutlineCache
  documents : Table Uri Document
  tickets : RefreshTickets
  clicks : ClickTracker
  runsInFlight : Nat
  /-- The places where the tool was missed and the user told so. -/
  installOffered : List FilePath
  /-- The client can be asked to refresh its lenses. -/
  lensRefresh : Bool
  /-- The identity of the next run. -/
  nextRun : RunId
  deriving Repr

/-- What a change of settings leads to. -/
structure SettingsChange where
  provider : Bool
  lenses : Bool
  deriving DecidableEq, Repr

namespace Explorer

/-- An explorer without documents. -/
def start (settings : Settings) (provider : OutlineProvider) : Explorer where
  settings := settings
  cache := .empty provider settings.outlineTtl
  documents := .empty
  tickets := .empty
  clicks := .empty
  runsInFlight := 0
  installOffered := []
  lensRefresh := false
  nextRun := 1

/-- The explorer of a client that has said nothing yet. -/
def initial : Explorer := start .default (.tool Settings.default.toolPath)

def document? (e : Explorer) (uri : Uri) : Option Document := e.documents.get? uri

def isOpen (e : Explorer) (uri : Uri) : Bool := e.documents.contains uri

/-- The tree of an open document. -/
def tree? (e : Explorer) (uri : Uri) : Option TestTree := (e.document? uri).bind (·.tree)

/-- The runner under the settings in force. -/
def runner (e : Explorer) : Runner := ⟨e.settings.toolPath, e.settings.runArgs⟩

/-! ### Events of the client -/

/-- Goes over to other settings. Another executable makes all outlines void and may be missed
anew. -/
def applySettings (e : Explorer) (s : Settings) : Explorer × SettingsChange :=
  let change : SettingsChange :=
    ⟨e.settings.providerChanged s, e.settings.lensesEnabled != s.lensesEnabled⟩
  let e := if change.provider then
      { e with cache := e.cache.setProvider (.tool s.toolPath), installOffered := [] }
    else e
  let e := if e.settings.outlineTtl ≠ s.outlineTtl then
      { e with cache := e.cache.setTtl s.outlineTtl }
    else e
  ({ e with settings := s }, change)

/-- Opens a document; its tree starts anew. -/
def openDocument (e : Explorer) (uri : Uri) (text : String) (version : Option Int) : Explorer :=
  { e with documents := e.documents.put uri ⟨text, version, none⟩ }

/-- Replaces the text of a document. Its tree stays until the next outline. -/
def updateDocument (e : Explorer) (uri : Uri) (text : String) (version : Option Int) : Explorer :=
  let tree := e.tree? uri
  { e with documents := e.documents.put uri ⟨text, version, tree⟩ }

/-- Closes a document: its refresh is cancelled and its outline forgotten. -/
def closeDocument (e : Explorer) (uri : Uri) : Explorer :=
  { e with
    tickets := e.tickets.cancel uri
    cache := e.cache.invalidate uri.filePath
    documents := e.documents.erase uri }

/-- Releases all that is held for the client. -/
def shutdown (e : Explorer) : Explorer :=
  { e with
    tickets := e.tickets.cancelAll
    clicks := e.clicks.cancelAll
    cache := e.cache.clear
    documents := .empty }

/-! ### Documents and their trees -/

/-- The request for the outline of a document's text. -/
def outlineRequest? (e : Explorer) (uri : Uri) : Option OutlineRequest :=
  (e.document? uri).map fun doc => .ofText uri.filePath doc.text

/-- Puts a tree in the place of a document's tree. -/
def setTree (e : Explorer) (uri : Uri) (t : TestTree) : Explorer :=
  { e with documents := e.documents.modify uri fun doc => { doc with tree := some t } }

/-- Merges a fresh outline into a document's tree and gives the change, if there is one. -/
def applyOutline (e : Explorer) (uri : Uri) (o : Outline) : Explorer × Option TreeChange :=
  match e.document? uri with
  | none => (e, none)
  | some doc =>
    let (t, delta) := TestTree.merge doc.tree o uri.rootName
    (e.setTree uri t, if delta.isEmpty then none else some (.ofDelta uri t delta))

/-- The item of a whole document. -/
def item? (e : Explorer) (uri : Uri) : Option TreeItem := (e.tree? uri).map .ofTree

/-- Notes that the user was told of a missing executable, and whether this is the first time. -/
def offerInstall (e : Explorer) (path : FilePath) : Explorer × Bool :=
  if e.installOffered.any (·.same path) then (e, false)
  else ({ e with installOffered := e.installOffered ++ [path] }, true)

end Explorer

end SpecExplorer
