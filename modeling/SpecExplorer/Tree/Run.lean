/-
# What a run does to a tree

A run prepares the nodes under its scope, marks them running, records one result after the other,
and at the end closes what is left open. The result of a node with children is combined from theirs
as soon as none of them is under way. Every operation says which nodes it changed. A node that
another run has prepared since is left alone, but what lies above it is combined from whatever its
children show.
-/
import SpecExplorer.Tree.Basic

namespace SpecExplorer

namespace RunResult

/-- The time of a result added to a sum that is absent until some time is known. -/
def addNanos (total : Option Nat) (r : RunResult) : Option Nat :=
  match r.nanos with
  | none => total
  | some n => some (total.getD 0 + n)

/-- The status of finished results taken together. -/
def overall (statuses : List RunStatus) : RunStatus :=
  if statuses.contains .failed then .failed
  else if statuses.contains .passed then .passed
  else .skipped

/-- The results of siblings as one, `none` while one of them is under way and when there are
none. -/
def combine (results : List RunResult) : Option RunResult :=
  let statuses := results.map (·.status)
  if statuses.isEmpty || statuses.any (!·.isTerminal) then none
  else some ⟨overall statuses, none, results.foldl addNanos none⟩

end RunResult

namespace TestTree

/-- The combined result of some siblings; idle ones do not count. -/
def combined (siblings : List TestTree) : Option RunResult :=
  RunResult.combine (siblings.filterMap (·.info.result))

/-- The combined result of a node's children. -/
def aggregate (t : TestTree) : Option RunResult := combined t.children

end TestTree

namespace TestNode

/-- Shows a result, if there is one to show. -/
def settle (n : TestNode) : Option RunResult → TestNode
  | none => n
  | some r => { n with result := some r }

/-- The key of a node, if its result has changed. -/
def changedKey (before after : TestNode) : List NodeKey :=
  if before.result = after.result then [] else [before.key]

/-! ### Steps of a run at one node -/

/-- Pending for a run, with nothing left of earlier ones. -/
def prepare (run : RunId) (n : TestNode) : TestNode :=
  { n with result := some (.ofStatus .pending), run := some run }

/-- A pending node of the run starts to run. -/
def start? (run : RunId) (n : TestNode) : Option TestNode :=
  match n.result with
  | some r =>
    if n.isClaimedBy run && r.status == .pending then
      some { n with result := some { r with status := .running } }
    else none
  | none => none

/-- A node of the run that is not finished becomes idle. -/
def revert? (run : RunId) (n : TestNode) : Option TestNode :=
  if n.isClaimedBy run && n.isUnfinished then some { n with result := none } else none

/-- Whether the node is settled by itself, not through its children. -/
def isLeaf (n : TestNode) (children : List TestTree) : Bool := n.kind == .spec || children.isEmpty

/-- A leaf of the run that is not finished is skipped. -/
def close (run : RunId) (children : List TestTree) (n : TestNode) : TestNode :=
  match n.result with
  | some r =>
    if n.isClaimedBy run && n.isLeaf children && !r.status.isTerminal then
      { n with result := some { r with status := .skipped } }
    else n
  | none => n

end TestNode

namespace TestTree

mutual

/-- Changes every node for which there is a change, and lists those in pre-order. -/
def touch (change : TestNode → Option TestNode) : TestTree → TestTree × List NodeKey
  | .node info children =>
    let (children, below) := touchAll change children
    match change info with
    | none => (.node info children, below)
    | some changed => (.node changed children, info.key :: below)

def touchAll (change : TestNode → Option TestNode) : List TestTree → List TestTree × List NodeKey
  | [] => ([], [])
  | t :: rest =>
    let (t, here) := touch change t
    let (rest, later) := touchAll change rest
    (t :: rest, here ++ later)

end

mutual

/-- Closes the leaves of a run and settles all that has children, from below. The changed nodes are
listed in pre-order. -/
def finish (run : RunId) : TestTree → TestTree × List NodeKey
  | .node info children =>
    let closed := info.close run children
    let (children, below) := finishAll run children
    let settled := closed.settle (combined children)
    (.node settled children, info.changedKey settled ++ below)

def finishAll (run : RunId) : List TestTree → List TestTree × List NodeKey
  | [] => ([], [])
  | t :: rest =>
    let (t, here) := finish run t
    let (rest, later) := finishAll run rest
    (t :: rest, here ++ later)

end

/-- A changed tree with the ancestors that changed, nearest first. -/
structure Bubbled (α : Type) where
  tree : α
  ancestors : List NodeKey

mutual

/-- Replaces the subtree under a key and settles its ancestors one after the other, nearest
first. -/
def bubble? (key : NodeKey) (change : TestTree → TestTree) : TestTree → Option (Bubbled TestTree)
  | .node info children =>
    if info.key = key then some ⟨change (.node info children), []⟩
    else (bubbleAmong? key change children).map fun b =>
      let settled := info.settle (combined b.tree)
      ⟨.node settled b.tree, b.ancestors ++ info.changedKey settled⟩

def bubbleAmong? (key : NodeKey) (change : TestTree → TestTree) :
    List TestTree → Option (Bubbled (List TestTree))
  | [] => none
  | t :: rest =>
    match bubble? key change t with
    | some b => some ⟨b.tree :: rest, b.ancestors⟩
    | none => (bubbleAmong? key change rest).map fun b => ⟨t :: b.tree, b.ancestors⟩

end

/-! ### Operations

Each takes the key that it works at and gives the changed tree with the keys of the nodes that
changed. Where the key is not in the tree nothing changes. -/

/-- Changes nodes at and under a key. -/
def touchAt (t : TestTree) (key : NodeKey) (change : TestNode → Option TestNode) :
    TestTree × List NodeKey :=
  (t.update? key (touch change)).getD (t, [])

/-- Makes a node and all below it pending for a run. -/
def prepareToRun (t : TestTree) (key : NodeKey) (run : RunId) : TestTree × List NodeKey :=
  t.touchAt key fun n => some (n.prepare run)

/-- Makes the pending nodes of a run running. -/
def markRunning (t : TestTree) (key : NodeKey) (run : RunId) : TestTree × List NodeKey :=
  t.touchAt key (·.start? run)

/-- Makes the unfinished nodes of a run idle, since it never started. -/
def revertPending (t : TestTree) (key : NodeKey) (run : RunId) : TestTree × List NodeKey :=
  t.touchAt key (·.revert? run)

/-- Shows a result at a node and settles what lies above it. The node itself comes first among
those that changed. -/
def applyResult (t : TestTree) (key : NodeKey) (r : RunResult) : TestTree × List NodeKey :=
  match t.bubble? key fun
    | .node info children => .node { info with result := some r } children with
  | some b => (b.tree, key :: b.ancestors)
  | none => (t, [])

/-- Closes a run: what it left open under the key is skipped, and all with children is settled from
below, up to the file. The changed nodes are listed in pre-order. -/
def finishRun (t : TestTree) (key : NodeKey) (run : RunId) : TestTree × List NodeKey :=
  match t.find? key, t.bubble? key fun s => (s.finish run).1 with
  | some s, some b => (b.tree, b.ancestors.reverse ++ (s.finish run).2)
  | _, _ => (t, [])

end TestTree

end SpecExplorer
