/-
# Names and commands

What the server is called, and what a client can have done by name. A command takes the address of a
document and most also the key of a node; further arguments are ignored.
-/
import SpecExplorer.Key.Text
import SpecExplorer.Uri.Parse
import SpecExplorer.View.Lens

namespace SpecExplorer

/-! ### What the server is called -/

namespace ServerName

def name : String := "ginkgo-ls"
def version : String := "0.1.0"

/-- The request for the tree of a document. -/
def treeMethod : String := "ginkgo/testTree"

/-- The message that a tree has changed. -/
def treeChangedMethod : String := "ginkgo/treeChanged"

end ServerName

/-! ### Commands -/

/-- A command with its arguments. -/
inductive Command where
  | runNode (uri : Uri) (key : NodeKey)
  | runAll (uri : Uri)
  | showOutput (uri : Uri) (key : NodeKey)
  | coverage (uri : Uri)
  | click (uri : Uri) (key : NodeKey)
  | refresh (uri : Uri)
  | toggleLenses
  deriving DecidableEq, Repr

/-- Why there is no command to carry out. -/
inductive CommandFault where
  | unknown
  | needsDocument
  | needsNode
  deriving DecidableEq, Repr

namespace Command

/-! ### Names -/

def runNodeName : String := "ginkgo.runNode"
def runAllName : String := "ginkgo.runAll"
def showOutputName : String := "ginkgo.showOutput"
def coverageName : String := "ginkgo.generateCoverage"
def clickName : String := "ginkgo.click"
def refreshName : String := "ginkgo.refresh"
def toggleLensesName : String := "ginkgo.toggleCodeLens"

/-- The names that the client is told of. Running from a lens is running a node. -/
def names : List String :=
  [runNodeName, Lens.command, runAllName, showOutputName, coverageName, clickName, refreshName,
    toggleLensesName]

/-! ### Arguments -/

/-- The document that the first argument names. -/
def uri? (arguments : List Json) : Option Uri :=
  (arguments[0]?.bind Json.string?).bind Uri.parse?

/-- The node that the second argument names. -/
def key? (arguments : List Json) : Option NodeKey :=
  (arguments[1]?.bind Json.string?).map NodeKey.parse

/-- A command on a document. -/
def onDocument (arguments : List Json) (command : Uri → Command) : Except CommandFault Command :=
  match uri? arguments with
  | some uri => .ok (command uri)
  | none => .error .needsDocument

/-- A command on a node. -/
def onNode (arguments : List Json) (command : Uri → NodeKey → Command) :
    Except CommandFault Command :=
  match uri? arguments, key? arguments with
  | some uri, some key => .ok (command uri key)
  | _, _ => .error .needsNode

/-- The command of a name with its arguments. -/
def read (name : String) (arguments : List Json) : Except CommandFault Command :=
  if name = runNodeName ∨ name = Lens.command then onNode arguments .runNode
  else if name = runAllName then onDocument arguments .runAll
  else if name = showOutputName then onNode arguments .showOutput
  else if name = coverageName then onDocument arguments .coverage
  else if name = clickName then onNode arguments .click
  else if name = refreshName then onDocument arguments .refresh
  else if name = toggleLensesName then .ok .toggleLenses
  else .error .unknown

example : names.length = 8 := by decide

end Command

end SpecExplorer
