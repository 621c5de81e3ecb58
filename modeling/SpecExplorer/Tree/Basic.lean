/-
# The tree of a test file

A node stands for the file, a container or a spec. It carries what the outline said about it and
what happened to it: its result, the run that last prepared it, and whether it is shown expanded.
The tree is a rose tree, and a node is addressed by its key. Lists of nodes are in pre-order, which
is the order of the source.
-/
import SpecExplorer.Key.Basic
import SpecExplorer.Run.Result
import SpecExplorer.Tree.Kind

namespace SpecExplorer

structure TestNode where
  key : NodeKey
  kind : NodeKind
  name : String
  range : Range
  focused : Bool
  pending : Bool
  labels : List String
  /-- What the last run left, `none` while idle. -/
  result : Option RunResult
  /-- The run that last prepared the node. -/
  run : Option RunId
  expanded : Bool
  deriving DecidableEq, Repr

namespace TestNode

/-- The node of a file that nothing is known about but its name. -/
def file (name : String) : TestNode where
  key := .root
  kind := .root
  name := name
  range := .zero
  focused := false
  pending := false
  labels := []
  result := none
  run := none
  expanded := true

def status (n : TestNode) : Option RunStatus := n.result.map (·.status)

/-- Whether the node's result is pending or running. -/
def isUnfinished (n : TestNode) : Bool := n.status.any (!·.isTerminal)

/-- Whether a run prepared the node last. -/
def isClaimedBy (n : TestNode) (run : RunId) : Bool := n.run == some run

/-- Whether two nodes agree in all that comes from the outline. -/
def sameShape (a b : TestNode) : Bool :=
  a.kind == b.kind && a.name == b.name && a.range == b.range && a.focused == b.focused &&
    a.pending == b.pending && a.labels == b.labels

end TestNode

inductive TestTree where
  | node (info : TestNode) (children : List TestTree)
  deriving Repr

namespace TestTree

/-- The tree of a file without containers and specs. -/
def ofFile (name : String) : TestTree := .node (.file name) []

def info : TestTree → TestNode
  | .node info _ => info

def children : TestTree → List TestTree
  | .node _ children => children

def key (t : TestTree) : NodeKey := t.info.key

/-- The keys of the children in order. -/
def childKeys (t : TestTree) : List NodeKey := t.children.map key

mutual

/-- The nodes of a tree in pre-order. -/
def nodes : TestTree → List TestNode
  | .node info children => info :: forestNodes children

def forestNodes : List TestTree → List TestNode
  | [] => []
  | t :: rest => nodes t ++ forestNodes rest

end

mutual

/-- The subtree under a key. -/
def find? (key : NodeKey) : TestTree → Option TestTree
  | .node info children =>
    if info.key = key then some (.node info children) else findAmong? key children

def findAmong? (key : NodeKey) : List TestTree → Option TestTree
  | [] => none
  | t :: rest => (find? key t).or (findAmong? key rest)

end

mutual

/-- The ancestors of the node with a key, nearest first. -/
def ancestors? (key : NodeKey) : TestTree → Option (List TestNode)
  | .node info children =>
    if info.key = key then some [] else (ancestorsAmong? key children).map (· ++ [info])

def ancestorsAmong? (key : NodeKey) : List TestTree → Option (List TestNode)
  | [] => none
  | t :: rest => (ancestors? key t).or (ancestorsAmong? key rest)

end

/-- The node with a key. -/
def node? (t : TestTree) (key : NodeKey) : Option TestNode := (t.find? key).map info

def contains (t : TestTree) (key : NodeKey) : Bool := (t.find? key).isSome

/-- The keys of all nodes in pre-order. -/
def keys (t : TestTree) : List NodeKey := t.nodes.map (·.key)

/-- How many nodes there are, the file included. -/
def size (t : TestTree) : Nat := t.nodes.length

/-- Whether the file has no containers and specs. -/
def isEmpty (t : TestTree) : Bool := t.size == 1

/-- The specs in source order. -/
def specs (t : TestTree) : List TestNode := t.nodes.filter (·.kind == .spec)

/-- The specs of a tree whose names from the outermost container down are the given ones. -/
def specsNamed (t : TestTree) (names : List String) : List TestNode :=
  t.specs.filter (·.key.names == names)

mutual

/-- Replaces the subtree under a key, if there is one. Whatever `change` says about the subtree is
handed on. -/
def update? {α : Type} (key : NodeKey) (change : TestTree → TestTree × α) :
    TestTree → Option (TestTree × α)
  | .node info children =>
    if info.key = key then some (change (.node info children))
    else (updateAmong? key change children).map fun (children, a) => (.node info children, a)

def updateAmong? {α : Type} (key : NodeKey) (change : TestTree → TestTree × α) :
    List TestTree → Option (List TestTree × α)
  | [] => none
  | t :: rest =>
    match update? key change t with
    | some (t, a) => some (t :: rest, a)
    | none => (updateAmong? key change rest).map fun (rest, a) => (t :: rest, a)

end

/-- Changes the node with a key, if there is one. -/
def modify (t : TestTree) (key : NodeKey) (f : TestNode → TestNode) : TestTree :=
  match t.update? key fun
    | .node info children => (TestTree.node (f info) children, ()) with
  | some (t, _) => t
  | none => t

/-- Opens or closes a node and tells its new state. A spec has nothing to show. -/
def toggle (t : TestTree) (key : NodeKey) : TestTree × Option Bool :=
  match t.node? key with
  | none => (t, none)
  | some n =>
    if n.kind = .spec then (t, none)
    else (t.modify key fun n => { n with expanded := !n.expanded }, some !n.expanded)

end TestTree

end SpecExplorer
