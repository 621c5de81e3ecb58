/-
# Tree items

What the client is shown of a node: a label, a short description, its kind and status, where it
stands, and its children.
-/
import SpecExplorer.Tree.Run

namespace SpecExplorer

namespace RunResult

/-- The status, with the time in whole milliseconds where it is known. -/
def description (r : RunResult) : String :=
  match r.nanos with
  | none => r.status.name
  | some nanos => s!"{r.status.name} ({millis nanos} ms)"

end RunResult

namespace TestNode

/-- The parts of a node's description: status, flags and labels. -/
def descriptionParts (n : TestNode) : List String :=
  (n.result.map (·.description)).toList ++
    (if n.focused then ["focused"] else []) ++
    (if n.pending then ["pending"] else []) ++
    (if n.labels.isEmpty then [] else ["[" ++ String.intercalate ", " n.labels ++ "]"])

/-- The secondary text of a node, if there is anything to say. -/
def description (n : TestNode) : Option String :=
  match n.descriptionParts with
  | [] => none
  | parts => some (String.intercalate " " parts)

end TestNode

/-- What is shown of one node, its children aside. -/
structure ItemInfo where
  key : NodeKey
  label : String
  description : Option String
  kind : NodeKind
  status : Option RunStatus
  range : Range
  expanded : Bool
  deriving DecidableEq, Repr

inductive TreeItem where
  | node (info : ItemInfo) (children : List TreeItem)
  deriving Repr

namespace ItemInfo

def ofNode (n : TestNode) : ItemInfo where
  key := n.key
  label := n.name
  description := n.description
  kind := n.kind
  status := n.status
  range := n.range
  expanded := n.expanded

end ItemInfo

namespace TreeItem

mutual

/-- The item of a tree. -/
def ofTree : TestTree → TreeItem
  | .node info children => .node (.ofNode info) (ofForest children)

def ofForest : List TestTree → List TreeItem
  | [] => []
  | t :: rest => ofTree t :: ofForest rest

end

end TreeItem

/-- The status of one node, without its subtree. -/
structure NodeStatus where
  key : NodeKey
  status : Option RunStatus
  description : Option String
  deriving DecidableEq, Repr

namespace NodeStatus

def ofNode (n : TestNode) : NodeStatus := ⟨n.key, n.status, n.description⟩

end NodeStatus

end SpecExplorer
